import Lwfs.Types
import Lwfs.Lib.Bytes
import Lwfs.Lib.Run
import Lwfs.Support.Hashtable
import Mathlib.Data.List.Pairwise

/-!
The capabilities that the file system client keeps, in a hash table under the
container and the operations.

Two keys are equal if these two fields are, while the hash value runs over all
bytes of the structure, and four of them belong to no field. They keep what
the stack or the heap held before. Keys that are equal are found again where
these bytes make the same contribution to the hash value
(`hashfromkey_eq_iff`, `coherent_iff`).
-/

namespace Lwfs.FsLwfs

open SysLib Support

variable {Mac : Type}

/-! ### The hash function -/

/-- A `char` as it is added to an `unsigned int`. -/
def charValue (c : UInt8) : UInt32 := c.toInt8.toInt32.toUInt32

/-- The loop of `RSHash`. -/
def rsHashLoop : UInt32 → UInt32 → List UInt8 → UInt32
  | _, hash, [] => hash
  | a, hash, c :: str => rsHashLoop (a * 378551) (hash * a + charValue c) str

def rsHash (str : List UInt8) : UInt32 := rsHashLoop 63689 0 str &&& 0x7FFFFFFF

/-! ### The keys -/

/-- `struct cap_key`, with the bytes behind `opcode`. -/
structure CapKey where
  cid : Cid
  opcode : Opcode
  padding : Octets 4
  deriving DecidableEq

/-- The bytes of the structure. -/
def CapKey.bytes (key : CapKey) : List UInt8 :=
  Bytes.ofNat 8 key.cid.toNat ++ Bytes.ofNat 4 key.opcode.toNat ++
    key.padding.bytes

def hashfromkey (key : CapKey) : UInt32 := rsHash key.bytes

def equalkeys (key1 key2 : CapKey) : Bool :=
  key1.cid == key2.cid && key1.opcode == key2.opcode

/-- What `cap_ht` is created with. -/
def capFns (loadlimit : ℕ → ℕ) : HashFns CapKey :=
  ⟨hashfromkey, equalkeys, loadlimit⟩

/-- What the bytes behind the fields contribute to the hash value. The factors
are the values that `a` runs through, multiplied from the end. -/
def paddingSum (p : Octets 4) : UInt32 :=
  4030634921 * charValue (p.byte 0) + 199092999 * charValue (p.byte 1) +
    2641054207 * charValue (p.byte 2) + charValue (p.byte 3)

/-- The contributions are equal in the bits that `RSHash` returns. -/
def SamePadding (p q : Octets 4) : Prop :=
  (paddingSum p).toNat % 2147483648 = (paddingSum q).toNat % 2147483648

instance (p q : Octets 4) : Decidable (SamePadding p q) :=
  inferInstanceAs (Decidable (_ = _))

/-! ### The cache -/

/-- The static variables of the cache. -/
structure CapCache (Mac : Type) where
  cacheHits : ℕ
  cacheMisses : ℕ
  capHt : Hashtable CapKey (Cap Mac)

/-- One call of `check_cap_cache`: its arguments, what its key has behind the
fields, and what the authorization service answers if it is asked. -/
structure CapLookup (Mac : Type) where
  cid : Cid
  opcode : Opcode
  padding : Octets 4
  getCap : Except ReturnCode (Cap Mac)

def CapLookup.key (l : CapLookup Mac) : CapKey := ⟨l.cid, l.opcode, l.padding⟩

/-- One call of `check_cid_cache`. -/
structure CidLookup (Mac : Type) where
  requestedCid : Cid
  /-- What the key of the first search has behind the fields, and what the
  service answers to it. -/
  padding : Octets 4
  getCap : Except ReturnCode (Cap Mac)
  /-- What `lwfs_create_container_sync` leaves. -/
  createContainer : Except ReturnCode (Cap Mac)
  /-- The second search, after another client has created the container. -/
  padding' : Octets 4
  getCap' : Except ReturnCode (Cap Mac)
  createAcl : Option ReturnCode
  /-- What `newkey` has behind the fields. -/
  newPadding : Octets 4

/-- The operations on a container that its creator gets. -/
def creatorOps : Opcode := containerModacl ||| containerRemove ||| containerRead

def CidLookup.first (l : CidLookup Mac) : CapLookup Mac :=
  ⟨l.requestedCid, creatorOps, l.padding, l.getCap⟩

def CidLookup.second (l : CidLookup Mac) : CapLookup Mac :=
  ⟨l.requestedCid, creatorOps, l.padding', l.getCap'⟩

section Calls

variable (loadlimit : ℕ → ℕ)

/-- The cache that `fs_lwfs` begins with. -/
def CapCache.init : CapCache Mac :=
  ⟨0, 0, Hashtable.create (capFns loadlimit) 1024⟩

/-- `check_cap_cache`. The counter of the misses counts the requests to the
authorization service. -/
def checkCapCache (s : CapCache Mac) (l : CapLookup Mac) :
    Except ReturnCode (Cap Mac) × CapCache Mac :=
  match Hashtable.search (capFns loadlimit) s.capHt l.key with
  | some cachedCap => (.ok cachedCap, { s with cacheHits := s.cacheHits + 1 })
  | none =>
      let s := { s with cacheMisses := s.cacheMisses + 1 }
      match l.getCap with
      | .error rc => (.error rc, s)
      | .ok cap =>
          (.ok cap, { s with
            capHt := Hashtable.insert (capFns loadlimit) s.capHt l.key cap })

/-- `check_cid_cache` from where it creates a container. -/
def createCid (s : CapCache Mac) (l : CidLookup Mac) :
    Except ReturnCode Cid × CapCache Mac :=
  match l.createContainer with
  | .error .errExist =>
      match checkCapCache loadlimit s l.second with
      | (.ok _, s) => (.ok l.requestedCid, s)
      | (.error rc, s) => (.error rc, s)
  | .error rc => (.error rc, s)
  | .ok modaclCap =>
      match l.createAcl with
      | some rc => (.error rc, s)
      | none =>
          -- no search for the key before it is inserted
          let newkey := ⟨modaclCap.data.cid, creatorOps, l.newPadding⟩
          (.ok modaclCap.data.cid, { s with
            capHt := Hashtable.insert (capFns loadlimit) s.capHt newkey
              modaclCap })

/-- `check_cid_cache`. -/
def checkCidCache (s : CapCache Mac) (l : CidLookup Mac) :
    Except ReturnCode Cid × CapCache Mac :=
  if l.requestedCid ≠ cidAny then
    match checkCapCache loadlimit s l.first with
    | (.ok _, s) => (.ok l.requestedCid, s)
    | (.error .errNoent, s) => createCid loadlimit s l
    | (.error rc, s) => (.error rc, s)
  else createCid loadlimit s l

/-! ### Runs -/

inductive CacheCall (Mac : Type)
  | cap (l : CapLookup Mac)
  | cid (l : CidLookup Mac)

def cacheStep (s : CapCache Mac) : CacheCall Mac → CapCache Mac
  | .cap l => (checkCapCache loadlimit s l).2
  | .cid l => (checkCidCache loadlimit s l).2

/-- What a call does to the cache: `check_cap_cache` is called, or
`check_cid_cache` inserts a key. -/
inductive CacheEvent (Mac : Type)
  | check (l : CapLookup Mac)
  | put (newkey : CapKey) (cap : Cap Mac)

def CacheEvent.key : CacheEvent Mac → CapKey
  | .check l => l.key
  | .put newkey _ => newkey

def applyEvent (s : CapCache Mac) : CacheEvent Mac → CapCache Mac
  | .check l => (checkCapCache loadlimit s l).2
  | .put newkey cap => { s with
      capHt := Hashtable.insert (capFns loadlimit) s.capHt newkey cap }

/-- The events of `check_cid_cache` from where it creates a container. -/
def CidLookup.createEvents (l : CidLookup Mac) : List (CacheEvent Mac) :=
  match l.createContainer with
  | .error .errExist => [.check l.second]
  | .error _ => []
  | .ok modaclCap =>
      match l.createAcl with
      | some _ => []
      | none => [.put ⟨modaclCap.data.cid, creatorOps, l.newPadding⟩ modaclCap]

/-- The events of a call in a state. -/
def CacheCall.events (s : CapCache Mac) :
    CacheCall Mac → List (CacheEvent Mac)
  | .cap l => [.check l]
  | .cid l =>
      if l.requestedCid ≠ cidAny then
        match (checkCapCache loadlimit s l.first).1 with
        | .error .errNoent => .check l.first :: l.createEvents
        | _ => [.check l.first]
      else l.createEvents

/-- The events of a run of calls. -/
def runEvents : CapCache Mac → List (CacheCall Mac) → List (CacheEvent Mac)
  | _, [] => []
  | s, call :: run =>
      call.events loadlimit s ++ runEvents (cacheStep loadlimit s call) run

theorem createCid_eq (s : CapCache Mac) (l : CidLookup Mac) :
    (createCid loadlimit s l).2 =
      Run.exec (applyEvent loadlimit) s l.createEvents := by
  unfold createCid CidLookup.createEvents
  cases hcreate : l.createContainer with
  | ok modaclCap =>
      cases hacl : l.createAcl with
      | some rc => rfl
      | none => rfl
  | error rc =>
      by_cases hexist : rc = .errExist
      · subst hexist
        simp only [Run.exec_cons, Run.exec_nil, applyEvent]
        rcases checkCapCache loadlimit s l.second with ⟨_ | _, s'⟩ <;> rfl
      · cases rc <;> first | rfl | exact absurd rfl hexist

theorem cacheStep_eq (s : CapCache Mac) (call : CacheCall Mac) :
    cacheStep loadlimit s call =
      Run.exec (applyEvent loadlimit) s (call.events loadlimit s) := by
  cases call with
  | cap l => rfl
  | cid l =>
      simp only [cacheStep, checkCidCache, CacheCall.events]
      split
      · rcases hfirst : checkCapCache loadlimit s l.first with ⟨rc | cap, s'⟩
        · have hstate : applyEvent loadlimit s (.check l.first) = s' := by
            simp only [applyEvent, hfirst]
          by_cases hnoent : rc = .errNoent
          · subst hnoent
            simp only [Run.exec_cons, hstate, createCid_eq]
          · cases rc <;>
              first | exact absurd rfl hnoent | simp [hstate]
        · simp [applyEvent, hfirst]
      · exact createCid_eq loadlimit s l

theorem exec_cacheStep (s : CapCache Mac) (run : List (CacheCall Mac)) :
    Run.exec (cacheStep loadlimit) s run =
      Run.exec (applyEvent loadlimit) s (runEvents loadlimit s run) := by
  induction run generalizing s with
  | nil => rfl
  | cons call run ih =>
      rw [Run.exec_cons, ih, runEvents, Run.exec_append, ← cacheStep_eq]

end Calls

/-! ### Equal keys and their hash values -/

theorem equalkeys_iff {key1 key2 : CapKey} :
    equalkeys key1 key2 = true ↔
      key1.cid = key2.cid ∧ key1.opcode = key2.opcode := by
  simp [equalkeys]

theorem equalkeys_symm {key1 key2 : CapKey}
    (h : equalkeys key1 key2 = true) : equalkeys key2 key1 = true := by
  rw [equalkeys_iff] at h ⊢
  exact ⟨h.1.symm, h.2.symm⟩

theorem equalkeys_trans {key1 key2 key3 : CapKey}
    (h : equalkeys key1 key2 = true) (h' : equalkeys key2 key3 = true) :
    equalkeys key1 key3 = true := by
  rw [equalkeys_iff] at h h' ⊢
  exact ⟨h.1.trans h'.1, h.2.trans h'.2⟩

/-- The value of `a` after some turns of the loop. -/
def turns : UInt32 → ℕ → UInt32
  | a, 0 => a
  | a, n + 1 => turns (a * 378551) n

theorem rsHashLoop_append (xs ys : List UInt8) (a hash : UInt32) :
    rsHashLoop a hash (xs ++ ys) =
      rsHashLoop (turns a xs.length) (rsHashLoop a hash xs) ys := by
  induction xs generalizing a hash with
  | nil => rfl
  | cons c xs ih => simp [rsHashLoop, turns, ih]

theorem exists_four_bytes (p : Octets 4) :
    ∃ c0 c1 c2 c3, p.bytes = [c0, c1, c2, c3] := by
  have hlen := p.length_eq
  match hp : p.bytes, hlen with
  | [c0, c1, c2, c3], _ => exact ⟨c0, c1, c2, c3, rfl⟩

/-- The last four turns are linear in the value before and in the bytes. -/
theorem rsHashLoop_padding (hash : UInt32) (p : Octets 4) :
    rsHashLoop 3767422889 hash p.bytes =
      hash * 589031825 + paddingSum p := by
  obtain ⟨c0, c1, c2, c3, hp⟩ := exists_four_bytes p
  have hbytes : p.byte 0 = c0 ∧ p.byte 1 = c1 ∧ p.byte 2 = c2 ∧
      p.byte 3 = c3 := by
    simp [Octets.byte, hp]
  simp only [hp, rsHashLoop, paddingSum, hbytes]
  grind

/-- The bits that `RSHash` returns. -/
theorem and_eq_and_iff (x p q : UInt32) :
    (x + p) &&& 0x7FFFFFFF = (x + q) &&& 0x7FFFFFFF ↔
      p.toNat % 2147483648 = q.toNat % 2147483648 := by
  have hmask : ∀ n : ℕ, n &&& 2147483647 = n % 2147483648 :=
    fun n => Nat.and_two_pow_sub_one_eq_mod n 31
  have hnum : (0x7FFFFFFF : UInt32).toNat = 2147483647 := rfl
  rw [← UInt32.toNat_inj, UInt32.toNat_and, UInt32.toNat_and, hnum, hmask,
    hmask, UInt32.toNat_add, UInt32.toNat_add]
  omega

/-- The hash values of two keys with the same fields. -/
theorem hashfromkey_eq_iff {key1 key2 : CapKey}
    (h : equalkeys key1 key2 = true) :
    hashfromkey key1 = hashfromkey key2 ↔
      SamePadding key1.padding key2.padding := by
  obtain ⟨cid, opcode, p⟩ := key1
  obtain ⟨cid', opcode', q⟩ := key2
  obtain ⟨rfl, rfl⟩ := equalkeys_iff.mp h
  have hlen : (Bytes.ofNat 8 cid.toNat ++ Bytes.ofNat 4 opcode.toNat).length =
      12 := by
    simp
  have hturns : turns 63689 12 = 3767422889 := by decide
  simp only [hashfromkey, rsHash, CapKey.bytes, rsHashLoop_append _ p.bytes,
    rsHashLoop_append _ q.bytes, hlen, hturns, rsHashLoop_padding]
  exact and_eq_and_iff _ _ _

/-! ### Coherence -/

section Coherence

variable (loadlimit : ℕ → ℕ)

/-- What the hash table promises of the keys of these events: equal keys have
one hash value, a key that has been looked up with success is found again with
the same capability and without a request to the authorization service, and
no two entries of the table have equal keys. -/
structure Coherent (events : List (CacheEvent Mac)) : Prop where
  law : ∀ e ∈ events, ∀ e' ∈ events, equalkeys e.key e'.key = true →
    hashfromkey e.key = hashfromkey e'.key
  found : ∀ pre l mid l' post cap,
    events = pre ++ .check l :: (mid ++ .check l' :: post) →
    equalkeys l'.key l.key = true →
    (checkCapCache loadlimit
      (Run.exec (applyEvent loadlimit) (.init loadlimit) pre) l).1 = .ok cap →
    let s := Run.exec (applyEvent loadlimit) (.init loadlimit)
      (pre ++ .check l :: mid)
    checkCapCache loadlimit s l' =
      (.ok cap, { s with cacheHits := s.cacheHits + 1 })
  single : ∀ pre, pre <+: events →
    (Run.exec (applyEvent loadlimit) (.init loadlimit) pre).capHt.entries.Pairwise
      fun e e' => equalkeys e.k e'.k = false

/-- The bytes behind the fields of equal keys make one contribution. -/
def PaddingAgrees (events : List (CacheEvent Mac)) : Prop :=
  ∀ e ∈ events, ∀ e' ∈ events, equalkeys e.key e'.key = true →
    SamePadding e.key.padding e'.key.padding

/-- The container that `check_cid_cache` has created is not one that the table
has a capability of the same operations for. -/
def NewContainer (s : CapCache Mac) : CacheEvent Mac → Prop
  | .check _ => True
  | .put newkey _ => ∀ e ∈ s.capHt.entries, equalkeys newkey e.k = false

/-- The invariant, with the keys that have been used so far or will be. -/
structure Tidy (keys : List CapKey) (s : CapCache Mac) : Prop where
  placed : Hashtable.Placed (capFns loadlimit) s.capHt.table
  used : ∀ e ∈ s.capHt.entries, e.k ∈ keys
  single : s.capHt.entries.Pairwise fun e e' => equalkeys e.k e'.k = false

/-- The table has the capability under a key that is equal. -/
def Stored (s : CapCache Mac) (key : CapKey) (cap : Cap Mac) : Prop :=
  ∃ e ∈ s.capHt.entries, equalkeys key e.k = true ∧ e.v = cap

theorem tidy_init (keys : List CapKey) :
    Tidy loadlimit keys (CapCache.init loadlimit : CapCache Mac) where
  placed := Hashtable.placed_create _ _
  used := by simp [CapCache.init]
  single := by simp [CapCache.init]

variable {loadlimit}

/-- A search either finds something or stores what the service grants. -/
theorem checkCapCache_cases (loadlimit : ℕ → ℕ) (s : CapCache Mac) (l : CapLookup Mac) :
    (∃ cap, Hashtable.search (capFns loadlimit) s.capHt l.key = some cap ∧
      checkCapCache loadlimit s l =
        (.ok cap, { s with cacheHits := s.cacheHits + 1 })) ∨
    Hashtable.search (capFns loadlimit) s.capHt l.key = none ∧
      ((∃ rc, checkCapCache loadlimit s l =
          (.error rc, { s with cacheMisses := s.cacheMisses + 1 })) ∨
        ∃ cap, checkCapCache loadlimit s l =
          (.ok cap, { s with
            cacheMisses := s.cacheMisses + 1
            capHt := Hashtable.insert (capFns loadlimit) s.capHt l.key
              cap })) := by
  unfold checkCapCache
  cases hsearch : Hashtable.search (capFns loadlimit) s.capHt l.key with
  | some cap => exact .inl ⟨cap, rfl, rfl⟩
  | none =>
      refine .inr ⟨rfl, ?_⟩
      cases hget : l.getCap with
      | error rc => exact .inl ⟨rc, rfl⟩
      | ok cap => exact .inr ⟨cap, rfl⟩

theorem apart_symm {e e' : Entry CapKey (Cap Mac)}
    (h : equalkeys e.k e'.k = false) : equalkeys e'.k e.k = false := by
  rw [Bool.eq_false_iff] at h ⊢
  exact fun h' => h (equalkeys_symm h')

/-- The table of a state with an entry more. -/
theorem Tidy.insert {keys : List CapKey} {s : CapCache Mac}
    (h : Tidy loadlimit keys s) {key : CapKey} (hkey : key ∈ keys)
    (hnew : ∀ e ∈ s.capHt.entries, equalkeys key e.k = false) (cap : Cap Mac)
    (hits misses : ℕ) :
    Tidy loadlimit keys ⟨hits, misses,
      Hashtable.insert (capFns loadlimit) s.capHt key cap⟩ := by
  have hperm := Hashtable.entries_insert_perm (capFns loadlimit) s.capHt key cap
  refine ⟨h.placed.insert (capFns loadlimit) key cap, ?_, ?_⟩
  · intro e he
    rcases List.mem_cons.mp (hperm.mem_iff.mp he) with rfl | he
    · exact hkey
    · exact h.used e he
  · rw [hperm.pairwise_iff apart_symm, List.pairwise_cons]
    exact ⟨hnew, h.single⟩

/-- In a tidy state a search finds a capability exactly if the table has it
under an equal key, where the hash values agree. -/
theorem Tidy.search {keys : List CapKey} {s : CapCache Mac}
    (h : Tidy loadlimit keys s) {key : CapKey} {cap : Cap Mac}
    (hlaw : ∀ k ∈ keys, equalkeys key k = true →
      hashfromkey key = hashfromkey k)
    (hstored : Stored s key cap) :
    Hashtable.search (capFns loadlimit) s.capHt key = some cap := by
  obtain ⟨e, he, hequal, rfl⟩ := hstored
  have hhash := hlaw e.k (h.used e he) hequal
  apply Hashtable.search_eq_some _ h.placed he hequal
  · exact Hashtable.hash_congr _ hhash
  · intro e' he' hequal'
    by_contra hne
    have hne' : e ≠ e' := fun heq => hne (heq ▸ rfl)
    have hboth := equalkeys_trans (equalkeys_symm hequal) hequal'
    have : Std.Symm fun e e' : Entry CapKey (Cap Mac) =>
        equalkeys e.k e'.k = false := ⟨fun _ _ => apart_symm⟩
    have hapart := h.single.forall he he' hne'
    rw [hboth] at hapart
    cases hapart

/-- An entry stays, whatever is stored after it. -/
theorem Stored.step {s : CapCache Mac} {key : CapKey} {cap : Cap Mac}
    (h : Stored s key cap) (event : CacheEvent Mac) :
    Stored (applyEvent loadlimit s event) key cap := by
  have hinsert : ∀ newkey newcap (s' : CapCache Mac),
      s'.capHt = Hashtable.insert (capFns loadlimit) s.capHt newkey newcap →
      Stored s' key cap := by
    intro newkey newcap s' hs'
    obtain ⟨e, he, hequal, hv⟩ := h
    have hperm := Hashtable.entries_insert_perm (capFns loadlimit) s.capHt
      newkey newcap
    refine ⟨e, ?_, hequal, hv⟩
    rw [hs', hperm.mem_iff]
    exact List.mem_cons_of_mem _ he
  cases event with
  | put newkey newcap => exact hinsert newkey newcap _ rfl
  | check l =>
      rcases checkCapCache_cases loadlimit s l with
        ⟨_, -, heq⟩ | ⟨-, ⟨rc, heq⟩ | ⟨newcap, heq⟩⟩
      · rw [applyEvent, heq]
        exact h
      · rw [applyEvent, heq]
        exact h
      · rw [applyEvent, heq]
        exact hinsert l.key newcap _ rfl

theorem Stored.exec {s : CapCache Mac} {key : CapKey} {cap : Cap Mac}
    (h : Stored s key cap) (events : List (CacheEvent Mac)) :
    Stored (Run.exec (applyEvent loadlimit) s events) key cap := by
  induction events generalizing s with
  | nil => exact h
  | cons event events ih => exact ih (h.step event)

/-- A capability that `check_cap_cache` has returned is in the table. -/
theorem stored_of_checkCapCache {s : CapCache Mac} {l : CapLookup Mac}
    {cap : Cap Mac} (h : (checkCapCache loadlimit s l).1 = .ok cap) :
    Stored (applyEvent loadlimit s (.check l)) l.key cap := by
  rcases checkCapCache_cases loadlimit s l with
    ⟨found, hsearch, heq⟩ | ⟨-, ⟨rc, heq⟩ | ⟨newcap, heq⟩⟩
  · rw [heq] at h
    cases h
    obtain ⟨e, he, hequal, hv⟩ :=
      Hashtable.exists_mem_of_search (capFns loadlimit) hsearch
    rw [applyEvent, heq]
    exact ⟨e, he, hequal, hv⟩
  · rw [heq] at h
    cases h
  · rw [heq] at h
    cases h
    have hperm := Hashtable.entries_insert_perm (capFns loadlimit) s.capHt
      l.key cap
    rw [applyEvent, heq]
    refine ⟨⟨_, l.key, cap⟩, hperm.mem_iff.mpr List.mem_cons_self, ?_, rfl⟩
    exact equalkeys_iff.mpr ⟨rfl, rfl⟩

/-- One event keeps the state tidy. -/
theorem Tidy.step {keys : List CapKey} {s : CapCache Mac}
    (h : Tidy loadlimit keys s) {event : CacheEvent Mac}
    (hkey : event.key ∈ keys)
    (hlaw : ∀ k ∈ keys, equalkeys event.key k = true →
      hashfromkey event.key = hashfromkey k)
    (hnew : NewContainer s event) :
    Tidy loadlimit keys (applyEvent loadlimit s event) := by
  cases event with
  | put newkey cap => exact h.insert hkey hnew cap _ _
  | check l =>
      rcases checkCapCache_cases loadlimit s l with
        ⟨_, -, heq⟩ | ⟨hnone, ⟨rc, heq⟩ | ⟨cap, heq⟩⟩
      · rw [applyEvent, heq]
        exact ⟨h.placed, h.used, h.single⟩
      · rw [applyEvent, heq]
        exact ⟨h.placed, h.used, h.single⟩
      · rw [applyEvent, heq]
        refine h.insert hkey ?_ cap _ _
        intro e he
        rw [Bool.eq_false_iff]
        intro hequal
        have hfound : Hashtable.search (capFns loadlimit) s.capHt l.key =
            some e.v := h.search hlaw ⟨e, he, hequal, rfl⟩
        rw [hnone] at hfound
        cases hfound

/-- The run lemma: every state of a run is tidy. -/
theorem tidy_exec {events : List (CacheEvent Mac)}
    (hlaw : ∀ e ∈ events, ∀ e' ∈ events, equalkeys e.key e'.key = true →
      hashfromkey e.key = hashfromkey e'.key)
    (hnew : Run.Along (applyEvent loadlimit) NewContainer (.init loadlimit)
      events) {pre : List (CacheEvent Mac)} (hpre : pre <+: events) :
    Tidy loadlimit (events.map CacheEvent.key)
      (Run.exec (applyEvent loadlimit) (.init loadlimit) pre) := by
  obtain ⟨post, rfl⟩ := hpre
  have hused : Run.Along (applyEvent loadlimit)
      (fun _ event => event ∈ pre ++ post) (.init loadlimit) pre :=
    Run.along_of_forall _ _ fun event h => List.mem_append_left _ h
  have hboth := (Run.along_and _ _ _ _ _).mpr
    ⟨hused, ((Run.along_append _ _ _ _ _).mp hnew).1⟩
  refine Run.exec_invariant ?_ (tidy_init loadlimit _) hboth
  rintro s event hs ⟨hmem, hfresh⟩
  refine hs.step (List.mem_map_of_mem hmem) ?_ hfresh
  intro k hk hequal
  obtain ⟨e', he', rfl⟩ := List.mem_map.mp hk
  exact hlaw event hmem e' he' hequal

variable (loadlimit)

/-- The cache is coherent in exactly those runs in which the bytes behind the
fields agree and no second entry is put. -/
theorem coherent_iff_of_events (events : List (CacheEvent Mac)) :
    Coherent loadlimit events ↔ PaddingAgrees events ∧
      Run.Along (applyEvent loadlimit) NewContainer (.init loadlimit)
        events := by
  constructor
  · intro h
    refine ⟨?_, ?_⟩
    · intro e he e' he' hequal
      exact (hashfromkey_eq_iff hequal).mp (h.law e he e' he' hequal)
    · obtain ⟨-, hsingle⟩ := (Run.forall_prefix_iff (p := fun s : CapCache Mac =>
        s.capHt.entries.Pairwise fun e e' => equalkeys e.k e'.k = false)).mp
          h.single
      refine Run.along_mono ?_ hsingle
      intro s event hs
      cases event with
      | check l => trivial
      | put newkey cap =>
          have hperm := Hashtable.entries_insert_perm (capFns loadlimit)
            s.capHt newkey cap
          have hs' := (hperm.pairwise_iff apart_symm).mp hs
          exact (List.pairwise_cons.mp hs').1
  · rintro ⟨hpadding, hnew⟩
    have hlaw : ∀ e ∈ events, ∀ e' ∈ events,
        equalkeys e.key e'.key = true →
          hashfromkey e.key = hashfromkey e'.key := by
      intro e he e' he' hequal
      exact (hashfromkey_eq_iff hequal).mpr (hpadding e he e' he' hequal)
    refine ⟨hlaw, ?_, fun pre hpre => (tidy_exec hlaw hnew hpre).single⟩
    rintro pre l mid l' post cap rfl hequal hok
    have hpre : pre ++ .check l :: mid <+:
        pre ++ .check l :: (mid ++ .check l' :: post) :=
      ⟨.check l' :: post, by simp⟩
    have htidy := tidy_exec hlaw hnew hpre
    have hstored : Stored (Run.exec (applyEvent loadlimit) (.init loadlimit)
        (pre ++ .check l :: mid)) l.key cap := by
      rw [Run.exec_append, Run.exec_cons]
      exact (stored_of_checkCapCache hok).exec mid
    obtain ⟨e, he, hkey, hv⟩ := hstored
    have hkeys : ∀ k ∈ (pre ++ .check l :: (mid ++ .check l' :: post)).map
        CacheEvent.key, equalkeys l'.key k = true →
          hashfromkey l'.key = hashfromkey k := by
      intro k hk hequal'
      obtain ⟨e', he', rfl⟩ := List.mem_map.mp hk
      exact hlaw (.check l') (by simp) e' he' hequal'
    have hfound := htidy.search hkeys ⟨e, he, equalkeys_trans hequal hkey, hv⟩
    simp only [checkCapCache, hfound]

/-- The calls of a coherent run leave a table in which no two entries have equal
keys. -/
theorem Coherent.single_exec {run : List (CacheCall Mac)}
    (h : Coherent loadlimit (runEvents loadlimit (.init loadlimit) run)) :
    (Run.exec (cacheStep loadlimit) (.init loadlimit) run).capHt.entries.Pairwise
      fun e e' => equalkeys e.k e'.k = false := by
  rw [exec_cacheStep]
  exact h.single _ (List.prefix_refl _)

/-- Equal keys have one hash value exactly if the bytes behind their fields
make one contribution, and a run of calls keeps the cache coherent exactly if
that holds of its keys and no container that `check_cid_cache` has created is
in the table already. -/
theorem coherent_iff :
    (∀ key1 key2 : CapKey, equalkeys key1 key2 = true →
      (hashfromkey key1 = hashfromkey key2 ↔
        SamePadding key1.padding key2.padding)) ∧
    ∀ run : List (CacheCall Mac),
      Coherent loadlimit (runEvents loadlimit (.init loadlimit) run) ↔
        PaddingAgrees (runEvents loadlimit (.init loadlimit) run) ∧
        Run.Along (applyEvent loadlimit) NewContainer (.init loadlimit)
          (runEvents loadlimit (.init loadlimit) run) :=
  ⟨fun _ _ h => hashfromkey_eq_iff h,
    fun _ => coherent_iff_of_events loadlimit _⟩

end Coherence

/-! ### The same pair twice -/

/-- The capability for reading a container, looked up with some bytes behind
the fields of the key. -/
def readLookup (p : Octets 4) : CapLookup Unit :=
  ⟨1, containerRead, p, .ok ⟨⟨1, containerRead,
    ⟨Octets.fill uuidSize 0, Octets.fill 20 0⟩⟩, ()⟩⟩

def lookedUpTwice : List (CacheCall Unit) :=
  [.cap (readLookup (Octets.fill 4 0)), .cap (readLookup (Octets.fill 4 1))]

/-- The second time the service is asked again. -/
example : (Run.exec (cacheStep id) (.init id) lookedUpTwice).cacheMisses = 2 :=
  by decide +kernel

/-- The second time an entry is inserted again. -/
theorem not_coherent_lookedUpTwice :
    ¬ Coherent id (runEvents id (.init id) lookedUpTwice) := by
  intro h
  have hsingle := h.single _ (List.prefix_refl _)
  revert hsingle
  decide +kernel

end Lwfs.FsLwfs
