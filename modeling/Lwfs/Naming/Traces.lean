import Lwfs.Lib.Faulty
import Lwfs.Naming.Access
import Lwfs.Naming.Steps

/-!
What failed requests leave behind.

A request that puts an entry calls the databases twice or more: once to store
the entry, and after that to store its inode or to count the entry in an inode
that is there. A call that fails after the first one ends the request with an
error, and nothing takes the entry back. A request that removes an entry
ignores what happens after the removal, so it returns an error only from
before it.
-/

namespace Lwfs.Naming

open SysLib Routine Steps

/-- The databases, and how often they have been called. -/
abbrev FaultyDb := Metered NamingDb

/-- A program on databases that fail to serve some calls. -/
def faultyRun {α : Type} (fails : ℕ → Bool) (p : DbProg α) :
    Routine Fault FaultyDb α :=
  p.run (faulty DbCall.exec fails)

section Calls

variable {α β : Type} {fails : ℕ → Bool} {c : DbCall} {k : c.Reply → DbProg α}
  {db t : NamingDb} {n : ℕ}

theorem faultyRun_bind (x : DbProg α) (f : α → DbProg β) :
    faultyRun fails (x >>= f) = faultyRun fails x >>= fun a => faultyRun fails (f a) :=
  Prog.run_bind _ x f

theorem faultyRun_call_of_fails (h : fails n = true) :
    faultyRun fails (.call c k) ⟨db, n⟩ =
      faultyRun fails (k (.error (.code .errNaming))) ⟨db, n + 1⟩ := by
  rw [faultyRun, Prog.run_call]
  simp only [faulty, h, DbCall.exec, if_true]
  rfl

theorem faultyRun_call_of_ok (h : fails n = false) {a : c.Value}
    (hc : c.routine db = .ok a t) :
    faultyRun fails (.call c k) ⟨db, n⟩ =
      faultyRun fails (k (.ok a)) ⟨t, n + 1⟩ := by
  rw [faultyRun, Prog.run_call]
  simp only [faulty, h, DbCall.exec, Bool.false_eq_true, if_false,
    outcome_of_ok hc, final_of_ok hc]
  rfl

theorem faultyRun_call_of_error (h : fails n = false) {e : Fault}
    (hc : c.routine db = .error e t) :
    faultyRun fails (.call c k) ⟨db, n⟩ =
      faultyRun fails (k (.error e)) ⟨t, n + 1⟩ := by
  rw [faultyRun, Prog.run_call]
  simp only [faulty, h, DbCall.exec, Bool.false_eq_true, if_false,
    outcome_of_error hc, final_of_error hc]
  rfl

theorem faultyRun_ask_of_fails (h : fails n = true) :
    faultyRun fails (ask c) ⟨db, n⟩ = .error (.code .errNaming) ⟨db, n + 1⟩ :=
  faultyRun_call_of_fails h

theorem faultyRun_ask_of_ok (h : fails n = false) {a : c.Value}
    (hc : c.routine db = .ok a t) :
    faultyRun fails (ask c) ⟨db, n⟩ = .ok a ⟨t, n + 1⟩ :=
  faultyRun_call_of_ok h hc

theorem faultyRun_ask_of_error (h : fails n = false) {e : Fault}
    (hc : c.routine db = .error e t) :
    faultyRun fails (ask c) ⟨db, n⟩ = .error e ⟨t, n + 1⟩ :=
  faultyRun_call_of_error h hc

end Calls

/-! ### The parts of a request that read -/

section Reads

variable {fails : ℕ → Bool}

theorem reads_ask {c : DbCall} {f : NamingDb → Except Fault c.Value}
    (h : c.routine = Routine.reader f) : Reads DbCall.exec fails 1 (ask c) f where
  ok_iff db n a t := by
    rw [served_one]
    show faultyRun fails (ask c) ⟨db, n⟩ = _ ↔ _
    cases hn : fails n with
    | true =>
        rw [faultyRun_ask_of_fails hn]
        exact iff_of_false nofun nofun
    | false =>
        cases hf : f db with
        | error e =>
            have hc : c.routine db = .error e db := by
              rw [h]
              exact reader_of_error hf
            rw [faultyRun_ask_of_error hn hc]
            exact iff_of_false nofun nofun
        | ok b =>
            have hc : c.routine db = .ok b db := by
              rw [h]
              exact reader_of_ok hf
            rw [faultyRun_ask_of_ok hn hc]
            simp [eq_comm]
  store_eq db n e t ht := by
    have ht : faultyRun fails (ask c) ⟨db, n⟩ = .error e t := ht
    cases hn : fails n with
    | true =>
        rw [faultyRun_ask_of_fails hn] at ht
        cases ht
        rfl
    | false =>
        cases hf : f db with
        | error e' =>
            have hc : c.routine db = .error e' db := by
              rw [h]
              exact reader_of_error hf
            rw [faultyRun_ask_of_error hn hc] at ht
            cases ht
            rfl
        | ok b =>
            have hc : c.routine db = .ok b db := by
              rw [h]
              exact reader_of_ok hf
            rw [faultyRun_ask_of_ok hn hc] at ht
            cases ht

theorem reads_entryOf (dirent : Dirent) :
    Reads DbCall.exec fails 1 (Steps.entryOf dirent) (Naming.entryOf dirent) := by
  have hget : Reads DbCall.exec fails 1 (ask (.getInode dirent.inodeOid))
      (inodeGet dirent.inodeOid) := reads_ask rfl
  exact hget.bind fun inode => reads_pure (DbEntry.mk dirent inode)

theorem reads_namingDbGetByName (parentOid : Oid) (name : Name) :
    Reads DbCall.exec fails 2 (Steps.namingDbGetByName parentOid name)
      (Naming.namingDbGetByName parentOid name) := by
  have hget : Reads DbCall.exec fails 1
      (ask (.getDirent (db1Keygen parentOid name)))
      (db1Get (db1Keygen parentOid name)) := reads_ask rfl
  exact hget.bind reads_entryOf

theorem reads_namingDbGetByOid (oid : Oid) :
    Reads DbCall.exec fails 2 (Steps.namingDbGetByOid oid)
      (Naming.namingDbGetByOid oid) := by
  have hget : Reads DbCall.exec fails 1 (ask (.getDirentByOid oid))
      (db2Get oid) := reads_ask rfl
  exact hget.bind reads_entryOf

theorem reads_checkParent (parent : NsEntry) :
    Reads DbCall.exec fails 0 (Steps.checkParent parent)
      fun _ => Naming.checkParent parent :=
  reads_fromExcept _

theorem reads_checkPerm {Mac : Type} (env : Env Mac) (oid : Oid) (cap : Cap Mac)
    (containerOp : Opcode) :
    Reads DbCall.exec fails 2 (Steps.checkPerm env oid cap containerOp)
      (Naming.checkPerm env oid cap containerOp) :=
  (reads_namingDbGetByOid oid).bind fun dbEnt =>
    reads_fromExcept (permit env cap containerOp dbEnt)

end Reads

/-! ### Errors without a trace -/

/-- If the program returns an error, the databases are as before. -/
def Untraced {α : Type} (x : Routine Fault FaultyDb α) (db : NamingDb) (n : ℕ) :
    Prop :=
  ∀ rc t, x ⟨db, n⟩ = .error (.code rc) t → t.store = db

section Untraced

variable {α β : Type} {fails : ℕ → Bool} {db : NamingDb} {n : ℕ}

theorem untraced_of_ok {x : Routine Fault FaultyDb α} {a : α} {t : FaultyDb}
    (h : x ⟨db, n⟩ = .ok a t) : Untraced x db n := by
  intro rc t' herror
  rw [h] at herror
  cases herror

theorem untraced_of_error {x : Routine Fault FaultyDb α} {e : Fault}
    {t : FaultyDb} (h : x ⟨db, n⟩ = .error e t) (ht : t.store = db) :
    Untraced x db n := by
  intro rc t' herror
  rw [h] at herror
  cases herror
  exact ht

/-- The database has an entry that it did not have. -/
theorem not_untraced {x : Routine Fault FaultyDb α} {rc : ReturnCode}
    {t : FaultyDb} {k : Db1Key} (h : x ⟨db, n⟩ = .error (.code rc) t)
    (hnew : k ∉ db.dirents) (hk : k ∈ t.store.dirents) : ¬ Untraced x db n := by
  intro huntraced
  rw [huntraced rc t h] at hk
  exact hnew hk

theorem untraced_map {p : DbProg α} {g : α → β} :
    Untraced (faultyRun fails (g <$> p)) db n ↔
      Untraced (faultyRun fails p) db n := by
  have hmap : faultyRun fails (g <$> p) = g <$> faultyRun fails p :=
    faultyRun_bind p fun a => pure (g a)
  unfold Untraced
  rw [hmap]
  cases h : faultyRun fails p ⟨db, n⟩ with
  | ok a t =>
      rw [map_of_ok h]
      exact iff_of_true nofun nofun
  | error e t => simp only [map_of_error h, EStateM.Result.error.injEq]

/-- Behind a part that reads, it matters only what follows where it gets
through. -/
theorem untraced_bind_iff {k : ℕ} {p : DbProg α} {f : NamingDb → Except Fault α}
    (hp : Reads DbCall.exec fails k p f) {q : α → DbProg β} :
    Untraced (faultyRun fails (p >>= q)) db n ↔
      ∀ a, Served fails n k → f db = .ok a →
        Untraced (faultyRun fails (q a)) db (n + k) := by
  by_cases h : ∃ a, Served fails n k ∧ f db = .ok a
  · obtain ⟨a, hserved, hf⟩ := h
    have hrun : faultyRun fails (p >>= q) ⟨db, n⟩ =
        faultyRun fails (q a) ⟨db, n + k⟩ := hp.run_bind_of_ok hserved hf
    have hleft : Untraced (faultyRun fails (p >>= q)) db n ↔
        Untraced (faultyRun fails (q a)) db (n + k) := by
      unfold Untraced
      rw [hrun]
    rw [hleft]
    constructor
    · intro hq a' _ hf'
      obtain rfl := Except.ok.inj (hf.symm.trans hf')
      exact hq
    · intro hq
      exact hq a hserved hf
  · have hnot : ∀ a, Served fails n k → f db ≠ .ok a :=
      fun a hserved hf => h ⟨a, hserved, hf⟩
    obtain ⟨e, t, hrun, ht⟩ := hp.run_bind_of_not (q := q) (n := n) hnot
    exact iff_of_true (untraced_of_error hrun ht)
      fun a hserved hf => absurd hf (hnot a hserved)

end Untraced

/-! ### Putting an entry -/

/-- The number of calls by which the inode of a new entry is stored or
counted. -/
def attachCalls (entry : DbEntry) : ℕ :=
  if entry.dirent.link ≠ Oid.zero then 2 else 1

/-- The inode of a new entry can be stored. -/
def Attachable (entry : DbEntry) (db : NamingDb) : Prop :=
  entry.dirent.link = Oid.zero → entry.inode.entryObj.oid ∉ db.inodes

section Put

variable {β : Type} {fails : ℕ → Bool} {db : NamingDb} {n : ℕ} {entry : DbEntry}

/-- The database with an entry whose inode was stored or counted. -/
def attached (entry : DbEntry) (db : NamingDb) : NamingDb :=
  (Naming.inodeAttach entry true).final db

section Link

variable {i : Inode}

theorem inodeIncrementRefcnt_of_lookup_some {o : Oid}
    (hi : db.inodes.lookup o = some i) :
    Naming.inodeIncrementRefcnt o db =
      .ok () { db with
        inodes := db.inodes.insert o { i with refCnt := i.refCnt + 1 } } := by
  rw [Naming.inodeIncrementRefcnt, get_bind, hi]
  exact inodePut_of_notMem fun h => Bool.false_ne_true h.1

theorem getInode_routine {o : Oid} (hi : db.inodes.lookup o = some i) :
    (DbCall.getInode o).routine db = .ok i db := by
  refine reader_of_ok ?_
  rw [inodeGet, hi]

theorem faultyRun_inodeIncrementRefcnt {o : Oid}
    (hi : db.inodes.lookup o = some i) (hserved : Served fails n 2) :
    faultyRun fails (Steps.inodeIncrementRefcnt o) ⟨db, n⟩ =
      .ok () ⟨{ db with
        inodes := db.inodes.insert o { i with refCnt := i.refCnt + 1 } },
        n + 2⟩ := by
  obtain ⟨hfirst, hsecond⟩ := served_two.mp hserved
  have hput : (DbCall.putInode o { i with refCnt := i.refCnt + 1 }
      false).routine db = .ok () { db with
        inodes := db.inodes.insert o { i with refCnt := i.refCnt + 1 } } :=
    inodePut_of_notMem fun h => Bool.false_ne_true h.1
  rw [Steps.inodeIncrementRefcnt, faultyRun_call_of_ok hfirst (getInode_routine hi)]
  exact faultyRun_call_of_ok hsecond hput

/-- A count that is not stored is an error. -/
theorem faultyRun_inodeIncrementRefcnt_of_not {o : Oid}
    (hi : db.inodes.lookup o = some i) (hserved : ¬ Served fails n 2) :
    ∃ t, faultyRun fails (Steps.inodeIncrementRefcnt o) ⟨db, n⟩ =
      .error (.code .errNaming) t ∧ t.store = db := by
  cases hfirst : fails n with
  | true =>
      exact ⟨_, faultyRun_call_of_fails hfirst, rfl⟩
  | false =>
      have hsecond : fails (n + 1) = true := by
        by_contra hne
        exact hserved (served_two.mpr ⟨hfirst, Bool.eq_false_iff.mpr hne⟩)
      refine ⟨⟨db, n + 2⟩, ?_, rfl⟩
      rw [Steps.inodeIncrementRefcnt,
        faultyRun_call_of_ok hfirst (getInode_routine hi)]
      exact faultyRun_call_of_fails hsecond

end Link

/-- The inode is stored or counted if no call fails. -/
theorem inodeAttach_of_served
    (hinode : entry.dirent.link ≠ Oid.zero →
      ∃ i, db.inodes.lookup entry.inode.entryObj.oid = some i)
    (hattach : Attachable entry db)
    (hserved : Served fails n (attachCalls entry)) :
    faultyRun fails (Steps.inodeAttach entry true) ⟨db, n⟩ =
      .ok () ⟨attached entry db, n + attachCalls entry⟩ := by
  by_cases hlink : entry.dirent.link = Oid.zero
  · have hcalls : attachCalls entry = 1 := if_neg fun h => h hlink
    have hput : (DbCall.putInode entry.inode.entryObj.oid entry.inode
        true).routine db = .ok () _ :=
      inodePut_of_notMem fun h => hattach hlink h.2
    rw [hcalls] at hserved ⊢
    rw [attached, inodeAttach_new hlink, Steps.inodeAttach,
      if_neg fun h => h hlink,
      faultyRun_ask_of_ok (served_one.mp hserved) hput]
    exact congrArg (fun t => EStateM.Result.ok () (Metered.mk t (n + 1)))
      (final_of_ok hput).symm
  · have hcalls : attachCalls entry = 2 := if_pos hlink
    obtain ⟨i, hi⟩ := hinode hlink
    rw [hcalls] at hserved ⊢
    rw [attached, inodeAttach_link hlink,
      final_of_ok (inodeIncrementRefcnt_of_lookup_some hi), Steps.inodeAttach,
      if_pos hlink]
    exact faultyRun_inodeIncrementRefcnt hi hserved

/-- Otherwise there is an error, and no inode was changed. -/
theorem inodeAttach_of_not
    (hinode : entry.dirent.link ≠ Oid.zero →
      ∃ i, db.inodes.lookup entry.inode.entryObj.oid = some i)
    (h : ¬ (Attachable entry db ∧ Served fails n (attachCalls entry))) :
    ∃ rc t, faultyRun fails (Steps.inodeAttach entry true) ⟨db, n⟩ =
      .error (.code rc) t ∧ t.store = db := by
  by_cases hlink : entry.dirent.link = Oid.zero
  · have hcalls : attachCalls entry = 1 := if_neg fun h => h hlink
    rw [hcalls, served_one] at h
    rw [Steps.inodeAttach, if_neg fun h => h hlink]
    cases hn : fails n with
    | true => exact ⟨_, _, faultyRun_ask_of_fails hn, rfl⟩
    | false =>
        have hmem : entry.inode.entryObj.oid ∈ db.inodes := by
          by_contra hnot
          exact h ⟨fun _ => hnot, hn⟩
        have hput : (DbCall.putInode entry.inode.entryObj.oid entry.inode
            true).routine db = .error (.code .errExist) db :=
          inodePut_of_mem hmem
        exact ⟨_, _, faultyRun_ask_of_error hn hput, rfl⟩
  · have hcalls : attachCalls entry = 2 := if_pos hlink
    obtain ⟨i, hi⟩ := hinode hlink
    have hserved : ¬ Served fails n 2 := by
      intro hserved
      exact h ⟨fun h0 => absurd h0 hlink, hcalls ▸ hserved⟩
    obtain ⟨t, hrun, ht⟩ := faultyRun_inodeIncrementRefcnt_of_not hi hserved
    refine ⟨.errNaming, t, ?_, ht⟩
    rw [Steps.inodeAttach, if_pos hlink]
    exact hrun

theorem key_mem_attached (entry : DbEntry) (db : NamingDb) :
    entry.dirent.key ∈ (attached entry (db.addDirent entry.dirent)).dirents := by
  have hsame : SameDirents (db.addDirent entry.dirent)
      (attached entry (db.addDirent entry.dirent)) :=
    inodeAttach_within entry true (db.addDirent entry.dirent)
  rw [hsame]
  exact (AList.mem_insert _).mpr (.inl rfl)

theorem putDirent_routine {d : Dirent} (hkey : d.key ∉ db.dirents) :
    (DbCall.putDirent d.key d true).routine db = .ok () (db.addDirent d) := by
  rw [DbCall.routine, db1Put, get_bind, if_neg fun h => hkey h.2]
  exact set_apply

theorem putDirent_routine_of_mem {d : Dirent} (hkey : d.key ∈ db.dirents) :
    (DbCall.putDirent d.key d true).routine db =
      .error (.code .errExist) db := by
  rw [DbCall.routine, db1Put, get_bind, if_pos ⟨rfl, hkey⟩]
  exact throw_apply

/-- An entry is put, and then something is done that reads: an error leaves no
trace exactly if no call that comes after the entry was stored can fail. -/
theorem untraced_put_iff {tail : DbProg β} {m : ℕ}
    (hinode : entry.dirent.link ≠ Oid.zero →
      ∃ i, db.inodes.lookup entry.inode.entryObj.oid = some i)
    (hok : entry.dirent.key ∉ db.dirents → ∀ n, Served fails n m →
      ∃ b t, faultyRun fails tail ⟨attached entry (db.addDirent entry.dirent), n⟩ =
        .ok b t)
    (herror : entry.dirent.key ∉ db.dirents → ∀ n, ¬ Served fails n m →
      ∃ rc t, faultyRun fails tail
        ⟨attached entry (db.addDirent entry.dirent), n⟩ = .error (.code rc) t ∧
          t.store = attached entry (db.addDirent entry.dirent)) :
    Untraced (faultyRun fails
        (Steps.namingDbPut entry true >>= fun _ => tail)) db n ↔
      (entry.dirent.key ∉ db.dirents → fails n = false →
        Attachable entry db ∧ Served fails (n + 1) (attachCalls entry + m)) := by
  have hassoc : faultyRun fails (Steps.namingDbPut entry true >>= fun _ => tail) =
      faultyRun fails (ask (.putDirent entry.dirent.key entry.dirent true)) >>=
        fun _ => faultyRun fails (Steps.inodeAttach entry true) >>=
          fun _ => faultyRun fails tail := by
    rw [Steps.namingDbPut, bind_assoc, faultyRun_bind]
    congr 1
    funext _
    exact faultyRun_bind _ _
  rw [hassoc]
  cases hn : fails n with
  | true =>
      exact iff_of_true (untraced_of_error (bind_of_error
        (faultyRun_ask_of_fails hn)) rfl) fun _ h => absurd h Bool.noConfusion
  | false =>
      by_cases hkey : entry.dirent.key ∈ db.dirents
      -- the name is taken: nothing is stored
      · refine iff_of_true (untraced_of_error (bind_of_error
          (faultyRun_ask_of_error hn (putDirent_routine_of_mem hkey))) rfl) ?_
        exact fun hnot => absurd hkey hnot
      · have hput := faultyRun_ask_of_ok hn (putDirent_routine hkey)
        by_cases hattach : Attachable entry db ∧
            Served fails (n + 1) (attachCalls entry)
        · obtain ⟨hfree, hserved⟩ := hattach
          have hrun : faultyRun fails (Steps.inodeAttach entry true)
              ⟨db.addDirent entry.dirent, n + 1⟩ = .ok () _ :=
            inodeAttach_of_served hinode hfree hserved
          by_cases hm : Served fails (n + 1 + attachCalls entry) m
          · obtain ⟨b, t, ht⟩ := hok hkey _ hm
            refine iff_of_true (untraced_of_ok ((bind_of_ok hput).trans
              ((bind_of_ok hrun).trans ht))) fun _ _ => ⟨hfree, ?_⟩
            exact served_add.mpr ⟨hserved, hm⟩
          · obtain ⟨rc, t, ht, hstore⟩ := herror hkey _ hm
            -- the entry stays without its inode
            refine iff_of_false (not_untraced ((bind_of_ok hput).trans
              ((bind_of_ok hrun).trans ht)) hkey ?_) fun h => ?_
            · rw [hstore]
              exact key_mem_attached entry db
            · exact hm (served_add.mp (h hkey rfl).2).2
        · obtain ⟨rc, t, hrun, hstore⟩ : ∃ rc t,
              faultyRun fails (Steps.inodeAttach entry true)
                ⟨db.addDirent entry.dirent, n + 1⟩ = .error (.code rc) t ∧
                  t.store = db.addDirent entry.dirent :=
            inodeAttach_of_not hinode hattach
          refine iff_of_false (not_untraced ((bind_of_ok hput).trans
            (bind_of_error hrun)) hkey ?_) fun h => ?_
          · rw [hstore]
            exact (AList.mem_insert _).mpr (.inl rfl)
          · obtain ⟨hfree, hserved⟩ := h hkey rfl
            exact hattach ⟨hfree, (served_add.mp hserved).1⟩

end Put

end Lwfs.Naming
