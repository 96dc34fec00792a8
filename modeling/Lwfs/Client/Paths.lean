import Lwfs.Client.Reachability
import Lwfs.Client.StripedFile
import Lwfs.Lib.CString
import Mathlib.Data.List.Induction

/-!
`traverse_path` over strings.

The path is taken apart from its end: the last component is copied into an
array of the length of a name, and what stands before it into a buffer as
long as the path, with the lengths kept in `int`s. On a path of names that
are short enough this is a lookup of one component after the other from the
root (`traversePath_pathString`), as long as the length of the path is an
`int`.
-/

namespace Lwfs.FsLwfs.Strings

open SysLib SysLib.CString Routine Naming
open Client (toInt32 toSize toInt32_of_lt toSize_of_lt)

variable {Mac : Type}

/-- How `traverse_path` ends when it does not end with an entry. -/
inductive PathError
  | returns (e : FsError)
  | faults (fault : Fault)
  deriving DecidableEq

/-- An access to memory. -/
def inBounds {α : Type} : Option α → Except Fault α
  | none => .error .overrun
  | some a => .ok a

/-- What the memory that one call gets holds before it is written. -/
structure Junk where
  name : ℕ → Char
  parentPath : ℕ → Char

/-- Memory as `malloc` and the stack hand it out. -/
def fresh (contents : ℕ → Char) (size : ℕ) : List Char :=
  (List.range size).map contents

/-- `get_suffix`, whose `len` goes to `strncpy` as a `size_t`. -/
def getSuffix (name path : List Char) (len : ℤ) : Except Fault (List Char) :=
  match rindex path '/' with
  | none => .error .badPointer
  | some ptr => inBounds (strncpy name (path.drop (ptr + 1)) (toSize len))

/-- `get_prefix`. -/
def getPrefix (parentPath path : List Char) (maxlen : ℤ) :
    Except Fault (List Char) :=
  match rindex path '/' with
  | none => .error .badPointer
  | some ptr => do
      let prefixLen := toInt32 (ptr + 1)
      let len := if prefixLen > maxlen then maxlen else prefixLen
      let buf ← inBounds (strncpy parentPath path (toSize len))
      let buf ← inBounds (store buf (len - 1) nul)
      -- what stands before the first component is the root
      if buf.head? = some nul then do
        let buf ← inBounds (store buf 0 '/')
        inBounds (store buf 1 nul)
      else return buf

/-- A routine of the file system inside `traverse_path`. -/
def returning {α : Type} (x : FsRoutine α) : Routine PathError Server α :=
  fun s =>
    match x s with
    | .ok a t => .ok a t
    | .error e t => .error (.returns e) t

/-- A step of `traverse_path` in its own memory. -/
def accessing {α : Type} (x : Except Fault α) : Routine PathError Server α :=
  Routine.reader fun _ => x.mapError .faults

section Traversal

variable (fs : FileSystem Mac) (env : List Char → FsEnv Mac)
  (junk : List Char → Junk)

/-- `traverse_path`. What a call finds outside itself and in its fresh memory
depends on its path. Each call of itself takes one turn of fuel. -/
def traverseFrom : ℕ → List Char → Routine PathError Server NsEntry
  | 0, _ => throw (.faults .hang)
  | fuel + 1, path =>
      if path = ['/'] then pure fs.root
      else do
        let parentPath := fresh (junk path).parentPath path.length
        let name ← accessing
          (getSuffix (fresh (junk path).name nameLen) path nameLen)
        let parentPath ← accessing
          (getPrefix parentPath path (toInt32 path.length))
        let parentPath ← accessing (inBounds (stringAt parentPath))
        let parentEnt ← traverseFrom fuel parentPath
        let parentCap ← returning
          (checkCap (env path) parentEnt.entryObj.cid containerRead)
        let name ← accessing (inBounds (stringAt name))
        returning ((serve (namingLookup ((env path).naming 0) parentEnt
          (clip name) parentCap)).mapOutcome orEnoent)

/-- `traverse_path` with as much fuel as it can use. -/
def traversePath (path : List Char) : Routine PathError Server NsEntry :=
  traverseFrom fs env junk (path.length + 1) path

end Traversal

/-! ### Looking up one component after the other -/

/-- The absolute path of a list of components. -/
def pathString (names : List Name) : List Char :=
  if names = [] then ['/'] else names.flatMap fun name => '/' :: name

/-- What can stand between two slashes and fits into an array for names. -/
structure Component (name : Name) : Prop where
  nonempty : name ≠ []
  short : name.length < nameLen
  noSlash : '/' ∉ name
  noNul : nul ∉ name

/-- A capability for the container of the entry, and the lookup in it. -/
def lookupIn (env : FsEnv Mac) (entry : NsEntry) (name : Name) :
    FsRoutine NsEntry := do
  let cap ← checkCap env entry.entryObj.cid containerRead
  (serve (namingLookup (env.naming 0) entry name cap)).mapOutcome orEnoent

/-- The components are looked up one after the other, beginning in an entry
that the components in `done` have led to. -/
def walk (env : List Char → FsEnv Mac) (done : List Name) (entry : NsEntry) :
    List Name → FsRoutine NsEntry
  | [] => pure entry
  | name :: names => do
      let next ← lookupIn (env (pathString (done ++ [name]))) entry name
      walk env (done ++ [name]) next names

/-! ### Taking a path apart -/

theorem pathString_append_singleton (front : List Name) (name : Name) :
    pathString (front ++ [name]) =
      (front.flatMap fun n => '/' :: n) ++ '/' :: name := by
  simp [pathString]

theorem nul_notMem_flatMap {names : List Name}
    (h : ∀ name ∈ names, Component name) :
    nul ∉ names.flatMap fun n => '/' :: n := by
  intro hmem
  obtain ⟨name, hname, hnul⟩ := List.mem_flatMap.mp hmem
  rcases List.mem_cons.mp hnul with hslash | hnul
  · exact absurd hslash (by decide)
  · exact (h name hname).noNul hnul

@[simp] theorem length_fresh (contents : ℕ → Char) (size : ℕ) :
    (fresh contents size).length = size := by
  simp [fresh]

/-- The last component, with at least one zero behind it. -/
theorem getSuffix_spec (front : List Char) {name : List Char} (h : Component name)
    {buf : List Char} (hbuf : buf.length = nameLen) :
    ∃ copy, getSuffix buf (front ++ '/' :: name) nameLen = .ok copy ∧
      stringAt copy = some name := by
  have hshort := h.short
  have hsize : toSize nameLen = nameLen := by decide
  have hname : (front ++ '/' :: name).drop (front.length + 1) = name := by
    simp
  have hfit : nameLen ≤ buf.length := by omega
  have hcopy := strncpy_of_lt hfit hshort
  have hget : getSuffix buf (front ++ '/' :: name) nameLen =
      .ok (name ++ nul :: (List.replicate (nameLen - name.length - 1) nul ++
        buf.drop nameLen)) := by
    rw [getSuffix, rindex_append_cons front h.noSlash]
    simp only [hname, hsize, hcopy, inBounds]
  exact ⟨_, hget, stringAt_append_nul h.noNul _⟩

/-- The buffer after `strncpy` and the assignment of the zero. -/
theorem copyFront {front name : List Char} {buf : List Char}
    (hbuf : buf.length = (front ++ '/' :: name).length) :
    ∃ rest, rest.length = name.length ∧
      strncpy buf (front ++ '/' :: name) (front.length + 1) =
        some (front ++ '/' :: rest) ∧
      store (front ++ '/' :: rest) front.length nul =
        some (front ++ nul :: rest) := by
  have hlength : (front ++ '/' :: name).length =
      front.length + name.length + 1 := by
    simp
    omega
  have htake : (front ++ '/' :: name).take (front.length + 1) =
      front ++ ['/'] := by
    rw [List.take_length_add_append]
    rfl
  refine ⟨buf.drop (front.length + 1), ?_, ?_, ?_⟩
  · rw [List.length_drop]
    omega
  · rw [strncpy_of_le (by omega) (by omega), htake]
    simp
  · rw [store_natCast (by simp)]
    simp

/-- What `get_prefix` does to a buffer that holds the string before the last
slash. -/
theorem rootIfEmpty {front rest : List Char} (hfront : nul ∉ front)
    (hrest : 0 < rest.length) :
    ∃ copy, (if (front ++ nul :: rest).head? = some nul then do
          let buf ← inBounds (store (front ++ nul :: rest) 0 '/')
          inBounds (store buf 1 nul)
        else return front ++ nul :: rest) = .ok copy ∧
      stringAt copy = some (if front = [] then ['/'] else front) := by
  cases front with
  | nil =>
      obtain ⟨c, behind, rfl⟩ := List.exists_cons_of_length_pos hrest
      have hslash : store (nul :: c :: behind) 0 '/' =
          some ('/' :: c :: behind) := by simp [store]
      have hnul : store ('/' :: c :: behind) 1 nul =
          some ('/' :: nul :: behind) := by simp [store]
      refine ⟨'/' :: nul :: behind, ?_, ?_⟩
      · simp [hslash, hnul, inBounds, bind, Except.bind]
      · exact stringAt_append_nul (s := ['/']) (by decide) behind
  | cons c front =>
      have hc : c ≠ nul := fun hc => hfront (hc ▸ List.mem_cons_self)
      refine ⟨(c :: front) ++ nul :: rest, ?_, ?_⟩
      · simp [hc, pure, Except.pure]
      · rw [stringAt_append_nul hfront]
        simp

/-- What stands before the last component, which is nothing where the path
has one component only. The lengths have to survive the conversions. -/
theorem getPrefix_of_lengths {front name : List Char} (hfront : nul ∉ front)
    (h : Component name) {buf : List Char} {maxlen : ℤ}
    (hbuf : buf.length = (front ++ '/' :: name).length)
    (hcount : toInt32 (front.length + 1) = (front.length + 1 : ℕ))
    (hmax : ((front.length + 1 : ℕ) : ℤ) ≤ maxlen)
    (hsize : toSize ((front.length + 1 : ℕ) : ℤ) = front.length + 1) :
    ∃ copy, getPrefix buf (front ++ '/' :: name) maxlen = .ok copy ∧
      stringAt copy = some (if front = [] then ['/'] else front) := by
  have hname : 0 < name.length := List.length_pos_iff.mpr h.nonempty
  have hshorter : ¬ ((front.length + 1 : ℕ) : ℤ) > maxlen := by omega
  have hindex : ((front.length + 1 : ℕ) : ℤ) - 1 = front.length := by omega
  obtain ⟨rest, hrest, hcopy, hstore⟩ := copyFront hbuf
  have hpositive : 0 < rest.length := by omega
  obtain ⟨copy, hroot, hstring⟩ := rootIfEmpty hfront hpositive
  refine ⟨copy, ?_, hstring⟩
  have hlen : (if toInt32 (front.length + 1) > maxlen then maxlen
      else toInt32 (front.length + 1)) = ((front.length + 1 : ℕ) : ℤ) := by
    rw [hcount, if_neg hshorter]
  rw [← hroot, getPrefix, rindex_append_cons front h.noSlash]
  dsimp only
  rw [hlen, hsize, hcopy, hindex]
  simp only [inBounds, hstore, bind, Except.bind]

theorem getPrefix_spec {front name : List Char} (hfront : nul ∉ front)
    (h : Component name) {buf : List Char}
    (hbuf : buf.length = (front ++ '/' :: name).length)
    (hlen : (front ++ '/' :: name).length < 2147483648) :
    ∃ copy, getPrefix buf (front ++ '/' :: name)
        (toInt32 (front ++ '/' :: name).length) = .ok copy ∧
      stringAt copy = some (if front = [] then ['/'] else front) := by
  have hlength : (front ++ '/' :: name).length =
      front.length + name.length + 1 := by
    simp
    omega
  refine getPrefix_of_lengths hfront h hbuf ?_ ?_ ?_
  · exact toInt32_of_lt (by omega)
  · rw [toInt32_of_lt hlen]
    omega
  · exact toSize_of_lt (by omega)

/-! ### The recursion -/

section Recursion

variable {α β : Type}

theorem returning_bind (x : FsRoutine α) (f : α → FsRoutine β) :
    returning (x >>= f) = returning x >>= fun a => returning (f a) := by
  funext s
  cases h : x s with
  | ok a t =>
      have hx : returning x s = .ok a t := by simp [returning, h]
      rw [bind_of_ok hx]
      simp only [returning, bind_of_ok h]
  | error e t =>
      have hx : returning x s = .error (.returns e) t := by
        simp [returning, h]
      rw [bind_of_error hx]
      simp only [returning, bind_of_error h]

theorem accessing_of_ok {x : Except Fault α} {a : α} (h : x = .ok a) :
    accessing x = pure a := by
  subst h
  rfl

theorem walk_append_singleton (env : List Char → FsEnv Mac)
    (done front : List Name) (entry : NsEntry) (name : Name) :
    walk env done entry (front ++ [name]) =
      walk env done entry front >>= fun parent =>
        lookupIn (env (pathString (done ++ front ++ [name]))) parent name := by
  induction front generalizing done entry with
  | nil => simp [walk]
  | cons n front ih =>
      simp only [List.cons_append, walk, ih, bind_assoc]
      simp

/-- What `get_prefix` leaves is the path of the components before. -/
theorem pathString_eq (front : List Name) :
    (if (front.flatMap fun n => '/' :: n) = [] then ['/']
      else front.flatMap fun n => '/' :: n) = pathString front := by
  cases front with
  | nil => rfl
  | cons n front => simp [pathString]

/-- The path of the components before is shorter, the root's too. -/
theorem length_pathString_lt (front : List Name) {name : Name}
    (h : Component name) :
    (pathString front).length < (pathString (front ++ [name])).length := by
  have hpos : 0 < name.length := List.length_pos_iff.mpr h.nonempty
  rw [pathString_append_singleton, ← pathString_eq, List.length_append,
    List.length_cons]
  split
  · simp
    omega
  · omega

/-- One call: the path before the last slash is traversed, and the component
behind it looked up. -/
theorem traverseFrom_step (fs : FileSystem Mac) (env : List Char → FsEnv Mac)
    (junk : List Char → Junk) {front name : List Char} (hfront : nul ∉ front)
    (hname : Component name)
    (hlen : (front ++ '/' :: name).length < 2147483648) (fuel : ℕ) :
    traverseFrom fs env junk (fuel + 1) (front ++ '/' :: name) =
      traverseFrom fs env junk fuel (if front = [] then ['/'] else front) >>=
        fun parent =>
          returning (lookupIn (env (front ++ '/' :: name)) parent name) := by
  have hne : front ++ '/' :: name ≠ ['/'] := by
    intro heq
    have hpos : 0 < name.length := List.length_pos_iff.mpr hname.nonempty
    have hlength := congrArg List.length heq
    simp at hlength
    omega
  generalize hpath : front ++ '/' :: name = path at hlen hne ⊢
  obtain ⟨suffix, hsuffix, hsuffixString⟩ := getSuffix_spec front hname
    (length_fresh (junk path).name nameLen)
  obtain ⟨buf, hprefix, hprefixString⟩ := getPrefix_spec hfront hname
    (hpath ▸ length_fresh (junk path).parentPath _) (hpath ▸ hlen)
  rw [hpath] at hsuffix hprefix
  have hclip : clip name = name := List.take_of_length_le hname.short.le
  rw [traverseFrom, if_neg hne]
  dsimp only
  rw [accessing_of_ok hsuffix, accessing_of_ok hprefix, pure_bind, pure_bind,
    hprefixString, hsuffixString, inBounds, accessing_of_ok rfl, pure_bind]
  simp only [lookupIn, returning_bind, pure_bind, inBounds,
    accessing_of_ok rfl, hclip]

theorem traverseFrom_pathString (fs : FileSystem Mac)
    (env : List Char → FsEnv Mac) (junk : List Char → Junk)
    {names : List Name} (hnames : ∀ name ∈ names, Component name)
    (hlen : (pathString names).length < 2147483648) {fuel : ℕ}
    (hfuel : (pathString names).length < fuel) :
    traverseFrom fs env junk fuel (pathString names) =
      returning (walk env [] fs.root names) := by
  induction names using List.reverseRecOn generalizing fuel with
  | nil =>
      obtain ⟨fuel, rfl⟩ := Nat.exists_eq_succ_of_ne_zero
        (Nat.ne_zero_of_lt hfuel)
      rfl
  | append_singleton front name ih =>
      obtain ⟨fuel, rfl⟩ := Nat.exists_eq_succ_of_ne_zero
        (Nat.ne_zero_of_lt hfuel)
      have hname : Component name := hnames name (by simp)
      have hfront : ∀ n ∈ front, Component n := by
        intro n hn
        exact hnames n (by simp [hn])
      have hshorter :
          (pathString front).length < (pathString (front ++ [name])).length :=
        length_pathString_lt front hname
      have hfuel : (pathString front).length < fuel := by omega
      have hparent := ih hfront (by omega) hfuel
      have hstep := pathString_append_singleton front name ▸
        traverseFrom_step fs env junk (nul_notMem_flatMap hfront) hname
          (pathString_append_singleton front name ▸ hlen) fuel
      rw [pathString_eq] at hstep
      rw [hstep, hparent, walk_append_singleton, returning_bind]
      rfl

end Recursion

/-! ### Component-wise lookup -/

/-- A component cannot be looked up: there is no capability for the container
of the entry that the components before it lead to, or the lookup fails. -/
inductive Fails (env : FsEnv Mac) (parent : NsEntry) (name : Name)
    (s : Server) : FsError → Server → Prop
  | capability {rc : ReturnCode}
      (h : env.checkCapCache parent.entryObj.cid containerRead = .error rc) :
      Fails env parent name s (.code rc) s
  | lookup {cap : Cap Mac} {e : FsError} {t : Server}
      (hcap : env.checkCapCache parent.entryObj.cid containerRead = .ok cap)
      (h : ((serve (namingLookup (env.naming 0) parent name cap)).mapOutcome
        orEnoent) s = .error e t) :
      Fails env parent name s e t

/-- What a traversal returns is the entry that the components lead to from the
root, and it returns an error exactly when some component fails: nothing else
can end it, an access outside a buffer in particular. -/
structure ComponentWise (fs : FileSystem Mac) (env : List Char → FsEnv Mac)
    (junk : List Char → Junk) (names : List Name) (s : Server) : Prop where
  ok_iff : ∀ entry t, traversePath fs env junk (pathString names) s =
    .ok entry t ↔ walk env [] fs.root names s = .ok entry t
  error_iff : ∀ e t, traversePath fs env junk (pathString names) s =
    .error e t ↔ ∃ front name back parent u failure,
      names = front ++ name :: back ∧
      walk env [] fs.root front s = .ok parent u ∧
      Fails (env (pathString (front ++ [name]))) parent name u failure t ∧
      e = .returns failure

theorem lookupIn_eq_error {env : FsEnv Mac} {parent : NsEntry} {name : Name}
    {s t : Server} {e : FsError} :
    lookupIn env parent name s = .error e t ↔
      Fails env parent name s e t := by
  have hcheck : ∀ cap u, checkCap env parent.entryObj.cid containerRead s =
      .ok cap u ↔
        env.checkCapCache parent.entryObj.cid containerRead = .ok cap ∧
          s = u := by
    intro cap u
    cases h : env.checkCapCache parent.entryObj.cid containerRead <;>
      simp [checkCap, h, Except.mapError]
  rw [lookupIn, bind_eq_error]
  constructor
  · rintro (hcap | ⟨cap, u, hcap, hlookup⟩)
    · cases h : env.checkCapCache parent.entryObj.cid containerRead with
      | error rc =>
          simp [checkCap, h, Except.mapError] at hcap
          obtain ⟨rfl, rfl⟩ := hcap
          exact .capability h
      | ok cap => simp [checkCap, h, Except.mapError] at hcap
    · obtain ⟨hget, rfl⟩ := (hcheck cap u).mp hcap
      exact .lookup hget hlookup
  · intro h
    cases h with
    | capability h =>
        apply Or.inl
        simp [checkCap, h, Except.mapError]
    | lookup hcap h => exact .inr ⟨_, _, (hcheck _ _).mpr ⟨hcap, rfl⟩, h⟩

/-- A walk fails at one component, which the components before it have led
to. -/
theorem walk_eq_error {env : List Char → FsEnv Mac} {done names : List Name}
    {entry : NsEntry} {s t : Server} {e : FsError} :
    walk env done entry names s = .error e t ↔
      ∃ front name back parent u, names = front ++ name :: back ∧
        walk env done entry front s = .ok parent u ∧
        lookupIn (env (pathString (done ++ front ++ [name]))) parent name u =
          .error e t := by
  induction names generalizing done entry s with
  | nil => simp [walk]
  | cons n names ih =>
      rw [walk, bind_eq_error]
      constructor
      · rintro (hfirst | ⟨next, u, hfirst, hrest⟩)
        · exact ⟨[], n, names, entry, s, rfl, rfl, by simpa using hfirst⟩
        · obtain ⟨front, name, back, parent, v, rfl, hwalk, hfail⟩ :=
            ih.mp hrest
          refine ⟨n :: front, name, back, parent, v, rfl, ?_, ?_⟩
          · rw [walk, bind_of_ok hfirst]
            exact hwalk
          · simpa using hfail
      · rintro ⟨front, name, back, parent, v, hnames, hwalk, hfail⟩
        cases front with
        | nil =>
            obtain ⟨rfl, rfl⟩ := List.cons.inj hnames
            obtain ⟨rfl, rfl⟩ := pure_eq_ok.mp hwalk
            exact .inl (by simpa using hfail)
        | cons m front =>
            obtain ⟨rfl, rfl⟩ := List.cons.inj hnames
            rw [walk, bind_eq_ok] at hwalk
            obtain ⟨next, u, hfirst, hwalk⟩ := hwalk
            refine .inr ⟨next, u, hfirst, ih.mpr ?_⟩
            exact ⟨front, name, back, parent, v, rfl, hwalk,
              by simpa using hfail⟩

theorem returning_eq_ok {α : Type} {x : FsRoutine α} {s t : Server} {a : α} :
    returning x s = .ok a t ↔ x s = .ok a t := by
  cases h : x s <;> simp [returning, h]

theorem returning_eq_error {α : Type} {x : FsRoutine α} {s t : Server}
    {e : PathError} :
    returning x s = .error e t ↔
      ∃ failure, x s = .error failure t ∧ e = .returns failure := by
  cases h : x s with
  | ok a u => simp [returning, h]
  | error failure u =>
      simp only [returning, h, EStateM.Result.error.injEq]
      constructor
      · rintro ⟨rfl, rfl⟩
        exact ⟨failure, ⟨rfl, rfl⟩, rfl⟩
      · rintro ⟨_, ⟨rfl, rfl⟩, rfl⟩
        exact ⟨rfl, rfl⟩

/-- The traversal of a path whose length is an `int`. -/
theorem traversePath_pathString (fs : FileSystem Mac)
    (env : List Char → FsEnv Mac) (junk : List Char → Junk)
    {names : List Name} (hnames : ∀ name ∈ names, Component name)
    (hlen : (pathString names).length < 2147483648) (s : Server) :
    ComponentWise fs env junk names s := by
  have hwalk : traversePath fs env junk (pathString names) =
      returning (walk env [] fs.root names) :=
    traverseFrom_pathString fs env junk hnames hlen (Nat.lt_succ_self _)
  refine ⟨?_, ?_⟩
  · intro entry t
    rw [hwalk, returning_eq_ok]
  · intro e t
    rw [hwalk, returning_eq_error]
    constructor
    · rintro ⟨failure, herror, rfl⟩
      obtain ⟨front, name, back, parent, u, hsplit, hfront, hfail⟩ :=
        walk_eq_error.mp herror
      exact ⟨front, name, back, parent, u, failure, hsplit, hfront,
        lookupIn_eq_error.mp hfail, rfl⟩
    · rintro ⟨front, name, back, parent, u, failure, hsplit, hfront, hfail,
        rfl⟩
      refine ⟨failure, walk_eq_error.mpr ?_, rfl⟩
      exact ⟨front, name, back, parent, u, hsplit, hfront,
        lookupIn_eq_error.mpr hfail⟩

/-- The lookup of a directory in a directory that is not there. -/
theorem traversePath_pathString_missing :
    ComponentWise mountedFs (fun _ => grantingEnv 1) (fun _ =>
      ⟨fun _ => 'x', fun _ => 'x'⟩) [['d'], ['e']] mountedServer := by
  apply traversePath_pathString
  · intro name hname
    have hcases : name = ['d'] ∨ name = ['e'] := by simpa using hname
    rcases hcases with rfl | rfl
    · exact ⟨by decide, by decide, by decide, by decide⟩
    · exact ⟨by decide, by decide, by decide, by decide⟩
  · decide

/-! ### The routine over lists of components -/

/-- One environment for a whole traversal, whose requests to the naming server
are numbered from the root on. -/
def numbered (env : FsEnv Mac) (path : List Char) : FsEnv Mac :=
  { env with naming := fun _ => env.naming (path.count '/' - 1) }

theorem count_slash_flatMap {names : List Name}
    (h : ∀ name ∈ names, Component name) :
    (names.flatMap fun n => '/' :: n).count '/' = names.length := by
  induction names with
  | nil => rfl
  | cons n names ih =>
      rw [List.forall_mem_cons] at h
      have hn : n.count '/' = 0 := List.count_eq_zero.mpr h.1.noSlash
      rw [List.flatMap_cons, List.count_append, ih h.2, List.count_cons_self,
        hn, List.length_cons]
      omega

/-- The traversal of a list of components is the traversal of their path. -/
theorem traversePath_eq_reverse (fs : FileSystem Mac) (env : FsEnv Mac)
    (junk : List Char → Junk) {names : List Name}
    (hnames : ∀ name ∈ names, Component name)
    (hlen : (pathString names).length < 2147483648) :
    traversePath fs (numbered env) junk (pathString names) =
      returning (FsLwfs.traversePath fs env names.reverse) := by
  have hwalk : traversePath fs (numbered env) junk (pathString names) =
      returning (walk (numbered env) [] fs.root names) :=
    traverseFrom_pathString fs _ junk hnames hlen (Nat.lt_succ_self _)
  rw [hwalk]
  congr 1
  clear hlen hwalk
  induction names using List.reverseRecOn with
  | nil => rfl
  | append_singleton front name ih =>
      have hname : Component name := hnames name (by simp)
      have hfront : ∀ n ∈ front, Component n := by
        intro n hn
        exact hnames n (by simp [hn])
      have hclip : clip name = name := List.take_of_length_le hname.short.le
      have hslash : name.count '/' = 0 :=
        List.count_eq_zero.mpr hname.noSlash
      have hcount : (pathString (front ++ [name])).count '/' - 1 =
          front.reverse.length := by
        rw [pathString_append_singleton, List.count_append,
          count_slash_flatMap hfront, List.count_cons_self, hslash,
          List.length_reverse]
        omega
      rw [walk_append_singleton, ih hfront, List.reverse_append,
        List.nil_append]
      show _ = FsLwfs.traversePath fs env (name :: front.reverse)
      rw [FsLwfs.traversePath, hclip, ← hcount]
      rfl

/-- So the path of an entry leads into the mounted namespace and nowhere else. -/
theorem inside_of_pathString {fs : FileSystem Mac} {env : FsEnv Mac}
    {mount : NamingDb} {s t : Server} {e : NsEntry}
    (hmount : Mounted fs.root.direntOid mount)
    (htree : Tree fs.root.direntOid mount s.db) (junk : List Char → Junk)
    {names : List Name} (hnames : ∀ name ∈ names, Component name)
    (hlen : (pathString names).length < 2147483648)
    (h : traversePath fs (numbered env) junk (pathString names) s = .ok e t) :
    Inside fs.root.direntOid mount e.direntOid := by
  rw [traversePath_eq_reverse fs env junk hnames hlen, returning_eq_ok] at h
  exact inside_of_traversePath hmount htree h

/-! ### Longer paths -/

/-- A length beyond the `int`s goes to `strncpy` as a `size_t` that no buffer
has room for. -/
theorem toSize_toInt32 {n : ℕ} (hlow : 2147483648 ≤ n)
    (hhigh : n < 4294967296) :
    toInt32 n < 0 ∧ toSize (toInt32 n) = n + 18446744069414584320 := by
  have hint : toInt32 n = (n : ℤ) - 4294967296 := by
    unfold toInt32
    rw [Int.bmod_def]
    omega
  rw [hint]
  unfold toSize
  omega

theorem getPrefix_long {front name : List Char} (h : Component name)
    {buf : List Char} (hbuf : buf.length = (front ++ '/' :: name).length)
    (hfront : front.length + 1 < 2147483648)
    (hlow : 2147483648 ≤ (front ++ '/' :: name).length)
    (hhigh : (front ++ '/' :: name).length < 4294967296) :
    getPrefix buf (front ++ '/' :: name)
      (toInt32 (front ++ '/' :: name).length) = .error .overrun := by
  obtain ⟨hneg, hsize⟩ := toSize_toInt32 hlow hhigh
  have hprefix : toInt32 (front.length + 1) = (front.length + 1 : ℕ) :=
    toInt32_of_lt hfront
  have hmin : (if toInt32 (front.length + 1) >
      toInt32 (front ++ '/' :: name).length
      then toInt32 (front ++ '/' :: name).length
      else toInt32 (front.length + 1)) =
        toInt32 (front ++ '/' :: name).length := by
    rw [if_pos]
    omega
  rw [getPrefix, rindex_append_cons front h.noSlash]
  dsimp only
  rw [hmin, hsize, strncpy_of_length_lt _ (by omega)]
  rfl

theorem traversePath_long (fs : FileSystem Mac) (env : List Char → FsEnv Mac)
    (junk : List Char → Junk) (front : List Char) {name : List Char}
    (h : Component name) (hfront : front.length + 1 < 2147483648)
    (hlow : 2147483648 ≤ (front ++ '/' :: name).length)
    (hhigh : (front ++ '/' :: name).length < 4294967296) (s : Server) :
    traversePath fs env junk (front ++ '/' :: name) s =
      .error (.faults .overrun) s := by
  have hne : front ++ '/' :: name ≠ ['/'] := by
    intro heq
    have hlength := congrArg List.length heq
    rw [List.length_singleton] at hlength
    omega
  rw [traversePath, traverseFrom, if_neg hne]
  generalize hpath : front ++ '/' :: name = path at hlow hhigh ⊢
  obtain ⟨suffix, hsuffix, -⟩ := getSuffix_spec front h
    (length_fresh (junk path).name nameLen)
  have hprefix := getPrefix_long h
    (hpath ▸ length_fresh (junk path).parentPath _) hfront (hpath ▸ hlow)
    (hpath ▸ hhigh)
  rw [hpath] at hsuffix hprefix
  rw [accessing_of_ok hsuffix, pure_bind, hprefix]
  rfl

def nameA : Name := ['a']

theorem component_nameA : Component nameA :=
  ⟨by decide, by decide, by decide, by decide⟩

theorem length_flatMap_replicate (k : ℕ) :
    ((List.replicate k nameA).flatMap fun n => '/' :: n).length = 2 * k := by
  induction k with
  | zero => rfl
  | succ k ih =>
      rw [List.replicate_succ, List.flatMap_cons, List.length_append, ih]
      simp [nameA]
      omega

/-- A path of `k + 1` components of one character. -/
theorem not_componentWise_replicate (fs : FileSystem Mac)
    (env : List Char → FsEnv Mac) (junk : List Char → Junk) {k : ℕ}
    (hlow : 2147483648 ≤ 2 * k + 2) (hhigh : 2 * k + 1 < 2147483648)
    (s : Server) :
    ¬ ComponentWise fs env junk (List.replicate k nameA ++ [nameA]) s := by
  intro h
  have hlength := length_flatMap_replicate k
  have hlong := traversePath_long fs env junk
    ((List.replicate k nameA).flatMap fun n => '/' :: n) component_nameA
    (by omega) (by simp [nameA] at hlength ⊢; omega)
    (by simp [nameA] at hlength ⊢; omega) s
  rw [← pathString_append_singleton] at hlong
  obtain ⟨_, _, _, _, _, failure, -, -, -, heq⟩ := (h.error_iff _ _).mp hlong
  cases heq

/-- On a path of two gibibytes, `maxlen` is negative. -/
theorem not_componentWise_long :
    ¬ ∀ (fs : FileSystem Unit) (env : List Char → FsEnv Unit)
      (junk : List Char → Junk) (names : List Name),
      (∀ name ∈ names, Component name) →
        ∀ s, ComponentWise fs env junk names s := by
  intro h
  have hnames : ∀ name ∈ List.replicate 1073741823 nameA ++ [nameA],
      Component name := by
    intro name hname
    rcases List.mem_append.mp hname with hname | hname
    · rw [List.eq_of_mem_replicate hname]
      exact component_nameA
    · rw [List.mem_singleton.mp hname]
      exact component_nameA
  have hwise := h mountedFs (fun _ => grantingEnv 1)
    (fun _ => ⟨fun _ => 'x', fun _ => 'x'⟩) _ hnames mountedServer
  exact not_componentWise_replicate _ _ _ (by decide) (by decide) _ hwise

end Lwfs.FsLwfs.Strings
