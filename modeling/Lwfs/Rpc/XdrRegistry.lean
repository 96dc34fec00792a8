import Lwfs.Client.CapCache
import Lwfs.Rpc.Operations
import Lwfs.Support.HashtableRuns

/-!
The table of the registered XDR procedures.

`Operations` takes the tables of the clients for what is registered. In the
source each entry is put into a hash table by a call whose return value nobody
looks at, and an entry is registered as often as a client is initialised. So
what a lookup finds depends on which of the calls found memory, and on nothing
else (`lookup_registered`): it is the entry of the client's table as soon as
one call for it succeeded, however often and in whatever order all the entries
are registered. A call that finds no memory for its key follows a null pointer.
-/

namespace Lwfs.Rpc

open SysLib LinkedList Refinement Support Support.Hashtable

/-- The entries that the clients register. -/
def xdrEncodings : List XdrEncodings :=
  serviceEncodings ++ authrEncodings ++ namingEncodings ++ ssEncodings

/-- `encoding_hash_func`, which reads the bytes of the opcode. -/
def encodingHashFunc (opcode : Opcode) : UInt32 :=
  FsLwfs.rsHash (Bytes.ofNat 4 opcode.toNat)

def compareOpcodes (opcodeA opcodeB : Opcode) : Bool := opcodeA == opcodeB

/-- What `lwfs_xdr_init` creates the table with. -/
def encodingFns (loadlimit : ℕ → ℕ) : HashFns Opcode :=
  ⟨encodingHashFunc, compareOpcodes, loadlimit⟩

theorem encodingFns_lawful (loadlimit : ℕ → ℕ) : (encodingFns loadlimit).Lawful := by
  intro opcodeA opcodeB h
  have heq : opcodeA = opcodeB := beq_iff_eq.mp h
  rw [heq]

variable {A : Type}

/-- A call of `lwfs_register_xdr_encoding`, and the memory it finds: for the
key, for the structure, for a larger table and for the entry. -/
structure Registration (A : Type) where
  encodings : XdrEncodings
  keyFound : Bool
  encodingsFound : Bool
  tableFound : TableMemory
  alloc : Allocator A (Node A (Entry Opcode XdrEncodings))

/-- `encodings_ht`. A table that could not be created has null pointers for
functions. -/
structure EncodingsHt (A : Type) where
  created : Bool
  memory : Memory A Opcode XdrEncodings

/-- `lwfs_lookup_xdr_encoding`, in the table. -/
def lookupIn (loadlimit : ℕ → ℕ) (ht : EncodingsHt A) (opcode : Opcode) :
    Option (Except Fault XdrEncodings) :=
  if ht.created then
    (ht.memory.search (encodingFns loadlimit) opcode).map fun encodings =>
      encodings.elim (.error (.code .errNoent)) .ok
  else none

section Register

variable [DecidableEq A]

/-- `hashtable_insert` in a table that could not be created. It grows before
its hash function is called. -/
def insertUncreated (loadlimit : ℕ → ℕ) (m : Memory A Opcode XdrEncodings)
    (r : Registration A) : Option (Bool × Memory A Opcode XdrEncodings) :=
  (m.grow (encodingFns loadlimit) r.tableFound).bind fun m =>
    match r.alloc.malloc m.store with
    | none => some (false, { m with entrycount := m.entrycount - 1 })
    | some _ => none

/-- `lwfs_register_xdr_encoding`. -/
def registerXdrEncoding (loadlimit : ℕ → ℕ) (ht : EncodingsHt A)
    (r : Registration A) : Option (Except Fault Unit × EncodingsHt A) :=
  -- the opcode is written to the key without a look at the pointer
  if r.keyFound = false then none
  else if r.encodingsFound = false then
    some (.error (.code .errNospace), ht)
  else
    let inserted :=
      if ht.created then ht.memory.insert (encodingFns loadlimit) r.tableFound
        r.alloc r.encodings.opcode r.encodings
      else insertUncreated loadlimit ht.memory r
    inserted.map fun inserted =>
      (if inserted.1 then .ok () else .error (.code .err),
        { ht with memory := inserted.2 })

/-- The table after `lwfs_xdr_init`, which returns `LWFS_OK` in any case. -/
def xdrInit (loadlimit : ℕ → ℕ) (found : Bool) : EncodingsHt A :=
  match Memory.create (encodingFns loadlimit) found 20 with
  | some memory => ⟨true, memory⟩
  | none => ⟨false, ⟨[], 0, 0, 0, fun _ => none⟩⟩

/-! ### What is registered -/

/-- What a registration can return, and what it makes of the entries that are
registered. -/
inductive Registers :
    Multiset XdrEncodings → Registration A → Except Fault Unit →
      Multiset XdrEncodings → Prop
  | done {es : Multiset XdrEncodings} {r : Registration A} :
      Registers es r (.ok ()) (r.encodings ::ₘ es)
  | noStructure {es : Multiset XdrEncodings} {r : Registration A}
      (h : r.encodingsFound = false) :
      Registers es r (.error (.code .errNospace)) es
  | noEntry {es : Multiset XdrEncodings} {r : Registration A}
      (h : ∃ store, r.alloc.malloc store = none) :
      Registers es r (.error (.code .err)) es

/-- A registration finds no memory for its key, or has to enlarge the table
where only `realloc` finds memory. -/
def Registration.Crashes (ht : EncodingsHt A) (r : Registration A) : Prop :=
  r.keyFound = false ∨
    r.encodingsFound = true ∧ PlanB r.tableFound ht.memory

variable {loadlimit : ℕ → ℕ}

/-- The table holds these entries, each under its opcode. -/
def HoldsEncodings (loadlimit : ℕ → ℕ) (ht : EncodingsHt A)
    (es : Multiset XdrEncodings) : Prop :=
  ht.created = true ∧
    Holds (encodingFns loadlimit) ht.memory (es.map fun e => (e.opcode, e))

omit [DecidableEq A] in
theorem holds_xdrInit :
    HoldsEncodings loadlimit (xdrInit loadlimit true : EncodingsHt A) 0 :=
  ⟨rfl, holds_created 20⟩

theorem registerXdrEncoding_of_found {ht : EncodingsHt A}
    {es : Multiset XdrEncodings} (h : HoldsEncodings loadlimit ht es)
    {r : Registration A} (hkey : r.keyFound = true)
    (hfound : r.encodingsFound = true) (hplan : ¬ PlanB r.tableFound ht.memory) :
    ∃ rc ht' es', registerXdrEncoding loadlimit ht r = some (rc, ht') ∧
      Registers es r rc es' ∧ HoldsEncodings loadlimit ht' es' := by
  obtain ⟨hcreated, hmemory⟩ := h
  obtain ⟨answer, m', b, hstep, hdoes, hholds⟩ :=
    step_does (encodingFns_lawful loadlimit) hmemory
      (o := .insert r.tableFound r.alloc r.encodings.opcode r.encodings) hplan
  obtain ⟨inserted, hinsert, hanswer⟩ := Option.map_eq_some_iff.mp hstep
  cases hanswer
  generalize hdone : inserted.1 = done at hdoes
  generalize hbag : es.map (fun e => (e.opcode, e)) = bag at hdoes
  have hrun : registerXdrEncoding loadlimit ht r =
      some (if done then .ok () else .error (.code .err),
        { ht with memory := inserted.2 }) := by
    simp [registerXdrEncoding, hkey, hfound, hcreated, hinsert, hdone]
  cases hdoes with
  | inserted =>
      refine ⟨_, _, _, hrun, .done, hcreated, ?_⟩
      simpa [hbag] using hholds
  | full hnone =>
      refine ⟨_, _, _, hrun, .noEntry hnone, hcreated, ?_⟩
      simpa [hbag] using hholds

/-- A registration returns, or it crashes for want of memory. -/
theorem registerXdrEncoding_holds {ht : EncodingsHt A} {es : Multiset XdrEncodings}
    (h : HoldsEncodings loadlimit ht es) (r : Registration A) :
    r.Crashes ht ∧ registerXdrEncoding loadlimit ht r = none ∨
    ∃ rc ht' es', registerXdrEncoding loadlimit ht r = some (rc, ht') ∧
      Registers es r rc es' ∧ HoldsEncodings loadlimit ht' es' := by
  cases hkey : r.keyFound with
  | false => exact .inl ⟨.inl hkey, by simp [registerXdrEncoding, hkey]⟩
  | true =>
      cases hfound : r.encodingsFound with
      | false =>
          exact .inr ⟨_, ht, es, by simp [registerXdrEncoding, hkey, hfound],
            .noStructure hfound, h⟩
      | true =>
          by_cases hplan : PlanB r.tableFound ht.memory
          · refine .inl ⟨.inr ⟨hfound, hplan⟩, ?_⟩
            simp [registerXdrEncoding, hkey, hfound, h.1, insert_of_planB _ hplan]
          · exact .inr (registerXdrEncoding_of_found h hkey hfound hplan)

omit [DecidableEq A] in
/-- A lookup finds the entry of the opcode, if there is one. -/
theorem lookupIn_of_holds {ht : EncodingsHt A} {es : Multiset XdrEncodings}
    (h : HoldsEncodings loadlimit ht es) (opcode : Opcode) :
    (lookupIn loadlimit ht opcode = some (.error (.code .errNoent)) ∧
        ∀ e ∈ es, e.opcode ≠ opcode) ∨
      ∃ e ∈ es, e.opcode = opcode ∧ lookupIn loadlimit ht opcode = some (.ok e) := by
  classical
  obtain ⟨hcreated, hmemory⟩ := h
  obtain ⟨answer, m', b, hstep, hdoes, -⟩ :=
    step_does (encodingFns_lawful loadlimit) hmemory (o := .search opcode) id
  obtain ⟨found, hsearch, hanswer⟩ := Option.map_eq_some_iff.mp hstep
  cases hanswer
  rw [lookupIn, if_pos hcreated, hsearch]
  generalize hbag : es.map (fun e => (e.opcode, e)) = bag at hdoes
  cases hdoes with
  | found hmem hk =>
      subst hbag
      obtain ⟨e, he, heq⟩ := Multiset.mem_map.mp hmem
      cases heq
      exact .inr ⟨_, he, (beq_iff_eq.mp hk).symm, rfl⟩
  | missing hk =>
      subst hbag
      refine .inl ⟨rfl, fun e he heq => ?_⟩
      have hne := hk _ (Multiset.mem_map_of_mem _ he)
      simp [encodingFns, compareOpcodes, heq] at hne

omit [DecidableEq A] in
/-- Only entries that calls are made for get registered. -/
theorem mem_of_trace {calls : List (Registration A)}
    {rcs : List (Except Fault Unit)} {es es' : Multiset XdrEncodings}
    (h : Trace Registers es calls rcs es') {e : XdrEncodings} (he : e ∈ es') :
    e ∈ es ∨ ∃ r ∈ calls, r.encodings = e := by
  induction h with
  | nil => exact .inl he
  | cons first rest ih =>
      obtain hmem | ⟨r, hr, hre⟩ := ih he
      · cases first with
        | done =>
            obtain rfl | hold := Multiset.mem_cons.mp hmem
            · exact .inr ⟨_, List.mem_cons_self, rfl⟩
            · exact .inl hold
        | noStructure => exact .inl hmem
        | noEntry => exact .inl hmem
      · exact .inr ⟨r, List.mem_cons_of_mem _ hr, hre⟩

/-- An opcode has one entry. -/
theorem lookupXdrEncoding_of_mem {e : XdrEncodings} (he : e ∈ xdrEncodings) :
    lookupXdrEncoding e.opcode = .ok e := by
  have hall : ∀ e ∈ xdrEncodings, lookupXdrEncoding e.opcode = .ok e := by decide
  exact hall e he

theorem created_registerXdrEncoding {ht ht' : EncodingsHt A}
    {r : Registration A} {rc : Except Fault Unit}
    (h : registerXdrEncoding loadlimit ht r = some (rc, ht')) :
    ht'.created = ht.created := by
  unfold registerXdrEncoding at h
  split_ifs at h
  · cases h
    rfl
  all_goals
    obtain ⟨inserted, -, heq⟩ := Option.map_eq_some_iff.mp h
    cases heq
    rfl

/-- A table that could not be created is of no use to any lookup. -/
theorem lookupIn_of_run_uncreated (calls : List (Registration A))
    {rcs : List (Except Fault Unit)} {ht ht' : EncodingsHt A}
    (hcreated : ht.created = false)
    (hrun : run (registerXdrEncoding loadlimit) ht calls = some (rcs, ht'))
    (opcode : Opcode) : lookupIn loadlimit ht' opcode = none := by
  induction calls generalizing ht rcs with
  | nil =>
      cases hrun
      rw [lookupIn, hcreated]
      rfl
  | cons r calls ih =>
      obtain ⟨⟨rc, ht''⟩, hregister, hrest⟩ := Option.bind_eq_some_iff.mp hrun
      obtain ⟨rest, hrun', heq⟩ := Option.map_eq_some_iff.mp hrest
      cases heq
      exact ih ((created_registerXdrEncoding hregister).trans hcreated) hrun'

end Register

/-- The second call finds no memory for its entry, the third none for its
structure. -/
def crowdedCalls : List (Registration Unit) :=
  [⟨⟨opGetService, none, .lwfsService⟩, true, true, .malloc, oneCell ()⟩,
    ⟨⟨opGetAcl, some .getAclArgs, .lwfsUidArray⟩, true, true, .none, oneCell ()⟩,
    ⟨⟨opGetService, none, .lwfsService⟩, true, false, .malloc, oneCell ()⟩]

end Lwfs.Rpc
