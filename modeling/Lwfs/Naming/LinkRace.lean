import Lwfs.Naming.Trails
import Mathlib.Algebra.Order.BigOperators.Group.Finset

/-!
Concurrent links and removals.

Several requests link entries and remove them, and their database calls
interleave. The stored count of an inode and what the requests owe it are
together the number of entries that name it. That is so as long as no other
request changes the inode between the moment when a request reads the count
and the moment when it stores it, no inode is deleted while another request
has an entry that is not counted yet, and no entry is put for an inode that is
gone.
-/

namespace Lwfs.Naming

open SysLib Routine Steps

variable {ι : Type} [DecidableEq ι]

/-- The databases and the requests that call them. -/
abbrev NamingWorld (ι : Type) :=
  World ι NamingDb DbCall DbCall.Reply Fault Result

/-- One call of one request. -/
def linkStep (w : NamingWorld ι) (i : ι) : NamingWorld ι :=
  w.step (DbCall.exec false) i

/-- What request `i` has done so far. -/
def trailOf (w : NamingWorld ι) (i : ι) : Trail :=
  w.trail Trail.after Trail.start i

/-- The inode `o` is as request `i` has read it. -/
def Undisturbed (o : Oid) (w : NamingWorld ι) (i : ι) : Prop :=
  w.store.inodes.lookup o = (trailOf w i).inode

/-- Request `i` has put an entry that names the inode `o`, and has still to
count it. -/
def Uncounted (o : Oid) (w : NamingWorld ι) (i : ι) : Prop :=
  (trailOf w i).stage.owed o = 1

instance (o : Oid) (w : NamingWorld ι) (i : ι) : Decidable (Undisturbed o w i) :=
  inferInstanceAs (Decidable (_ = _))

instance (o : Oid) (w : NamingWorld ι) (i : ι) : Decidable (Uncounted o w i) :=
  inferInstanceAs (Decidable (_ = _))

/-- When a call of request `i` does the inode `o` no harm. An entry for it is
put only while the inode is there. The inode is stored or deleted only by a
request that has read it as it is, the count does not overflow, and no other
request has an entry for it that is still to be counted when it is deleted. -/
def Harmless (o : Oid) (w : NamingWorld ι) (i : ι) : DbCall → Prop
  | .putDirent _ d _ => d.inodeOid = o → o ∈ w.store.inodes
  | .putInode inodeOid _ _ => inodeOid = o → Undisturbed o w i ∧
      (Uncounted o w i →
        ∀ r ∈ w.store.inodes.lookup o, r.refCnt.toInt + 1 < 2 ^ 31)
  | .delInode inode => inode.entryObj.oid = o →
      Undisturbed o w i ∧ ∀ j, j ≠ i → ¬ Uncounted o w j
  | _ => True

/-- The call that request `i` makes next does the inode `o` no harm. -/
def Calm (o : Oid) (w : NamingWorld ι) (i : ι) : Prop :=
  ∀ c ∈ (w.procs i).next, Harmless o w i c

instance [Fintype ι] (o : Oid) (w : NamingWorld ι) (i : ι) :
    (c : DbCall) → Decidable (Harmless o w i c)
  | .putDirent _ _ _ => inferInstanceAs (Decidable (_ → _))
  | .putInode _ _ _ => inferInstanceAs (Decidable (_ → _))
  | .delInode _ => inferInstanceAs (Decidable (_ → _))
  | .getDirent _ => instDecidableTrue
  | .getDirentByOid _ => instDecidableTrue
  | .countDirents _ => instDecidableTrue
  | .getDirents _ _ => instDecidableTrue
  | .delDirent _ => instDecidableTrue
  | .getInode _ => instDecidableTrue

instance [Fintype ι] (o : Oid) (w : NamingWorld ι) (i : ι) :
    Decidable (Calm o w i) :=
  inferInstanceAs (Decidable (∀ c ∈ (w.procs i).next, _))

/-! ### One step -/

/-- The entry that a request has read last is an entry that was stored. -/
theorem Trail.dirent_after {c : DbCall} (t : Trail) (db : NamingDb) :
    (t.after ⟨c, c.routine.outcome db⟩).dirent = t.dirent ∨
      ∃ k d, db.dirents.lookup k = some d ∧
        (t.after ⟨c, c.routine.outcome db⟩).dirent = some d := by
  cases c with
  | getDirent key =>
      have hreply : (DbCall.getDirent key).routine.outcome db = db1Get key db :=
        outcome_reader (db1Get key) db
      rw [hreply]
      cases hd : db1Get key db with
      | error e => exact .inl rfl
      | ok d => exact .inr ⟨key, d, db1Get_eq_ok.mp hd, rfl⟩
  | getDirentByOid oid =>
      have hreply : (DbCall.getDirentByOid oid).routine.outcome db =
          db2Get oid db := outcome_reader (db2Get oid) db
      rw [hreply, db2Get]
      cases hd : db.dirents.find Dirent.oid oid with
      | none => exact .inl rfl
      | some e => exact .inr ⟨e.1, e.2, (Table.lookup_of_find hd).1, rfl⟩
  | getInode inodeOid =>
      generalize (DbCall.getInode inodeOid).routine.outcome db = r
      cases r <;> exact .inl rfl
  | countDirents oid => exact .inl rfl
  | getDirents oid maxlen => exact .inl rfl
  | putDirent key d b =>
      generalize (DbCall.putDirent key d b).routine.outcome db = r
      cases r <;> exact .inl rfl
  | delDirent oid =>
      generalize (DbCall.delDirent oid).routine.outcome db = r
      cases r <;> exact .inl rfl
  | putInode inodeOid inode b => exact .inl rfl
  | delInode inode => exact .inl rfl

section Step

variable {o : Oid} {w : NamingWorld ι} {i : ι} {c : DbCall}
  {k : c.Reply → DbProg Result} (h : w.procs i = .call c k)

include h

theorem linkStep_store : (linkStep w i).store = c.routine.final w.store :=
  World.step_store _ h

theorem trailOf_self : trailOf (linkStep w i) i =
    (trailOf w i).after ⟨c, c.routine.outcome w.store⟩ :=
  World.trail_step_self h

theorem trailOf_of_ne {j : ι} (hj : j ≠ i) :
    trailOf (linkStep w i) j = trailOf w j :=
  World.trail_step_of_ne h hj

/-- What an entry was read as. -/
theorem dirent_linkStep {j : ι} {d : Dirent}
    (hd : (trailOf (linkStep w i) j).dirent = some d) :
    (trailOf w j).dirent = some d ∨
      ∃ key, w.store.dirents.lookup key = some d := by
  by_cases hj : j = i
  · subst hj
    rw [trailOf_self h] at hd
    rcases (trailOf w j).dirent_after w.store (c := c) with hsame |
      ⟨key, d', hstored, hread⟩
    · exact .inl (hsame.symm.trans hd)
    · rw [hread, Option.some.injEq] at hd
      exact .inr ⟨key, hd ▸ hstored⟩
  · rw [trailOf_of_ne h hj] at hd
    exact .inl hd

end Step

/-! ### The invariant -/

variable [Fintype ι]

/-- What the requests together owe to the count of `o`. -/
def debt (o : Oid) (w : NamingWorld ι) : ℤ := ∑ i, (trailOf w i).stage.owed o

/-- The count of `o` is right except for what is owed to it. -/
structure Balanced (o : Oid) (w : NamingWorld ι) : Prop where
  absent : w.store.inodes.lookup o = none →
    w.store.links o = 0 ∧ ∀ i, (trailOf w i).stage.owed o = 0
  present : ∀ r, w.store.inodes.lookup o = some r →
    0 < r.refCnt.toInt ∧ r.refCnt.toInt + debt o w = w.store.links o

/-- What the requests that generate the ids `ids` keep. -/
structure Accounted (o : Oid) (ids : ι → Oid) (w : NamingWorld ι) : Prop where
  wellFormed : WellFormed w.store
  obeys : ∀ i, (w.procs i).Obeys (countDiscipline o (ids i)) (trailOf w i)
  balanced : Balanced o w
  /-- An id is not in use before the request has put its entry. -/
  unused : ∀ i, (trailOf w i).stage = .idle →
    (∀ k d, w.store.dirents.lookup k = some d → d.oid ≠ ids i) ∧
      ∀ j d, (trailOf w j).dirent = some d → d.oid ≠ ids i
  /-- An entry that was read is still the only one that can have its id. -/
  known : ∀ j d, (trailOf w j).dirent = some d →
    ∀ k d', w.store.dirents.lookup k = some d' → d'.oid = d.oid → d' = d

section Preserved

variable {o : Oid} {ids : ι → Oid} {w : NamingWorld ι} {i : ι} {c : DbCall}
  {k : c.Reply → DbProg Result}

/-- The replies that the databases give are the ones counted on. -/
theorem plausible_of_accounted (hw : Accounted o ids w) :
    Plausible o (trailOf w i) c (c.routine.outcome w.store) := by
  cases c with
  | getDirent key =>
      have hreply : (DbCall.getDirent key).routine.outcome w.store =
          db1Get key w.store := outcome_reader (db1Get key) w.store
      rw [hreply]
      cases hd : db1Get key w.store with
      | error e => trivial
      | ok d => exact hw.wellFormed.zero key d (db1Get_eq_ok.mp hd)
  | getInode inodeOid =>
      have hreply : (DbCall.getInode inodeOid).routine.outcome w.store =
          inodeGet inodeOid w.store :=
        outcome_reader (inodeGet inodeOid) w.store
      rw [hreply, inodeGet]
      cases hr : w.store.inodes.lookup inodeOid with
      | none =>
          rintro rfl
          rw [(hw.balanced.absent hr).2 i]
          decide
      | some r =>
          refine ⟨hw.wellFormed.inode_oid _ r hr, ?_⟩
          rintro rfl
          exact (hw.balanced.present r hr).1
  | getDirentByOid oid => trivial
  | countDirents oid => trivial
  | getDirents oid maxlen => trivial
  | putDirent key d b => trivial
  | delDirent oid => trivial
  | putInode inodeOid inode b => trivial
  | delInode inode => trivial

variable (h : w.procs i = .call c k)

include h

theorem debt_linkStep : debt o (linkStep w i) =
    debt o w - (trailOf w i).stage.owed o +
      (trailOf (linkStep w i) i).stage.owed o := by
  have hrest : ∑ j ∈ Finset.univ.erase i, (trailOf (linkStep w i) j).stage.owed o =
      ∑ j ∈ Finset.univ.erase i, (trailOf w j).stage.owed o :=
    Finset.sum_congr rfl fun j hj => by
      rw [trailOf_of_ne h (Finset.ne_of_mem_erase hj)]
  have hsum := Finset.add_sum_erase Finset.univ
    (fun j => (trailOf (linkStep w i) j).stage.owed o) (Finset.mem_univ i)
  have hsum' := Finset.add_sum_erase Finset.univ
    (fun j => (trailOf w j).stage.owed o) (Finset.mem_univ i)
  rw [debt, debt, ← hsum, ← hsum', hrest]
  omega

/-- The count stays right if the inode and the number of its entries stay, and
the request owes no more than before. -/
theorem Balanced.of_same (hb : Balanced o w)
    (hinode : (linkStep w i).store.inodes.lookup o = w.store.inodes.lookup o)
    (hlinks : ((linkStep w i).store.links o : ℤ) - w.store.links o =
      (trailOf (linkStep w i) i).stage.owed o - (trailOf w i).stage.owed o)
    (hgone : w.store.inodes.lookup o = none →
      (trailOf (linkStep w i) i).stage.owed o = 0) :
    Balanced o (linkStep w i) where
  absent hnone := by
    rw [hinode] at hnone
    obtain ⟨hzero, howed⟩ := hb.absent hnone
    rw [hgone hnone, howed i, hzero] at hlinks
    refine ⟨by omega, fun j => ?_⟩
    by_cases hj : j = i
    · subst hj
      exact hgone hnone
    · rw [trailOf_of_ne h hj]
      exact howed j
  present r hr := by
    rw [hinode] at hr
    obtain ⟨hpos, hsum⟩ := hb.present r hr
    rw [debt_linkStep h]
    exact ⟨hpos, by omega⟩

theorem obeys_linkStep (hw : Accounted o ids w) (j : ι) :
    ((linkStep w i).procs j).Obeys (countDiscipline o (ids j))
      (trailOf (linkStep w i) j) := by
  have hreply : (countDiscipline o (ids i)).Expects (trailOf w i) c
      (DbCall.exec false c w.store).1 := plausible_of_accounted hw
  exact World.obeys_step (D := fun j => countDiscipline o (ids j))
    (fun _ => rfl) hw.obeys h hreply j

theorem permitted_of_accounted (hw : Accounted o ids w) :
    Permitted o (ids i) (trailOf w i) c := by
  have hobeys := hw.obeys i
  rw [h] at hobeys
  exact hobeys.1

/-! ### The calls that read -/

/-- The ids stay accounted for if no entry is put. -/
theorem Accounted.of_dirents (hw : Accounted o ids w)
    (hwf : WellFormed (linkStep w i).store) (hb : Balanced o (linkStep w i))
    (hidle : (trailOf (linkStep w i) i).stage = .idle →
      (trailOf w i).stage = .idle)
    (hsub : ∀ key d, (linkStep w i).store.dirents.lookup key = some d →
      w.store.dirents.lookup key = some d) :
    Accounted o ids (linkStep w i) where
  wellFormed := hwf
  obeys := obeys_linkStep h hw
  balanced := hb
  unused j hj := by
    have hj' : (trailOf w j).stage = .idle := by
      by_cases hji : j = i
      · subst hji
        exact hidle hj
      · rwa [trailOf_of_ne h hji] at hj
    obtain ⟨hstored, hread⟩ := hw.unused j hj'
    refine ⟨fun key d hd => hstored key d (hsub key d hd), fun j' d hd => ?_⟩
    rcases dirent_linkStep h hd with hd | ⟨key, hd⟩
    · exact hread j' d hd
    · exact hstored key d hd
  known j d hd key d' hd' hoid := by
    have hd' := hsub key d' hd'
    rcases dirent_linkStep h hd with hd | ⟨key', hd⟩
    · exact hw.known j d hd key d' hd' hoid
    · exact (hw.wellFormed.unique.eq_of_lookup hd' hd hoid).2

/-- Nothing that matters has happened. -/
theorem accounted_of_same (hw : Accounted o ids w)
    (hstore : (linkStep w i).store = w.store)
    (hstage : (trailOf (linkStep w i) i).stage = (trailOf w i).stage) :
    Accounted o ids (linkStep w i) := by
  refine hw.of_dirents h ?_ (hw.balanced.of_same h ?_ ?_ fun hnone => ?_) ?_ ?_
  · rw [hstore]
    exact hw.wellFormed
  · rw [hstore]
  · rw [hstore, hstage]
    omega
  · rw [hstage]
    exact (hw.balanced.absent hnone).2 i
  · rw [hstage]
    exact id
  · intro key d hd
    rwa [hstore] at hd

theorem accounted_of_reading (hc : c.Reading) (hw : Accounted o ids w) :
    Accounted o ids (linkStep w i) := by
  refine accounted_of_same h hw ?_ ?_
  · rw [linkStep_store h, final_of_reading hc]
  · rw [trailOf_self h, stage_after_of_reading hc]

end Preserved

/-! ### The calls that write -/

theorem owed_nonpos {o : Oid} {s : Stage} (h : s.owed o ≠ 1) : s.owed o ≤ 0 := by
  cases s with
  | idle => exact le_refl 0
  | settled => exact le_refl 0
  | inserted d =>
      have hd : d.inodeOid ≠ o := fun hd => h (if_pos hd)
      exact le_of_eq (if_neg hd)
  | removed d =>
      simp only [Stage.owed]
      split <;> omega

section Writes

variable {o : Oid} {ids : ι → Oid} {w : NamingWorld ι} {i : ι}

/-- An entry is put while its inode is there. -/
theorem accounted_putDirent {key : Db1Key} {d : Dirent} {b : Bool}
    {k : Except Fault Unit → DbProg Result}
    (h : w.procs i = .call (.putDirent key d b) k) (hw : Accounted o ids w)
    (hinj : Function.Injective ids) (hne : ∀ j, ids j ≠ Oid.zero)
    (hcalm : d.inodeOid = o → o ∈ w.store.inodes) :
    Accounted o ids (linkStep w i) := by
  obtain ⟨hidle, rfl, hoid, rfl⟩ := permitted_of_accounted h hw
  have hstore := linkStep_store h
  have htrail := trailOf_self h
  by_cases hkey : d.key ∈ w.store.dirents
  · -- the name is in use, and nothing happens
    have hcall := putDirent_routine_of_mem hkey
    rw [final_of_error hcall] at hstore
    rw [outcome_of_error hcall] at htrail
    exact accounted_of_same h hw hstore (congrArg Trail.stage htrail)
  have hcall := putDirent_routine hkey
  rw [final_of_ok hcall] at hstore
  rw [outcome_of_ok hcall] at htrail
  have hstage : (trailOf (linkStep w i) i).stage = .inserted d :=
    congrArg Trail.stage htrail
  obtain ⟨hfresh, hunread⟩ := hw.unused i hidle
  have hlinks := links_addDirent (o := o) hkey
  refine ⟨?_, obeys_linkStep h hw, hw.balanced.of_same h ?_ ?_ ?_, ?_, ?_⟩
  · rw [hstore]
    refine hw.wellFormed.addDirent hkey (fun key d' hd' => ?_) fun hzero => ?_
    · rw [hoid]
      exact hfresh key d' hd'
    · exact absurd (hoid.symm.trans hzero) (hne i)
  · rw [hstore]
    rfl
  · rw [hstore, hstage, hidle, hlinks]
    simp only [Stage.owed]
    split <;> omega
  · intro hnone
    rw [hstage]
    refine if_neg fun ho => ?_
    exact AList.lookup_eq_none.mp hnone (hcalm ho)
  · intro j hj
    have hji : j ≠ i := by
      rintro rfl
      rw [hstage] at hj
      cases hj
    rw [trailOf_of_ne h hji] at hj
    obtain ⟨hstored, hread⟩ := hw.unused j hj
    refine ⟨fun key d' hd' => ?_, fun j' d' hd' => ?_⟩
    · rw [hstore] at hd'
      rcases lookup_addDirent hd' with ⟨-, rfl⟩ | hd'
      · rw [hoid]
        exact fun heq => hji (hinj heq.symm)
      · exact hstored key d' hd'
    · rcases dirent_linkStep h hd' with hd' | ⟨key, hd'⟩
      · exact hread j' d' hd'
      · exact hstored key d' hd'
  · intro j d' hd' key d'' hd'' heq
    rw [hstore] at hd''
    rcases lookup_addDirent hd'' with ⟨-, rfl⟩ | hd'' <;>
      rcases dirent_linkStep h hd' with hd' | ⟨key', hd'⟩
    · exact absurd (heq.symm.trans hoid) (hunread j d' hd')
    · exact absurd (heq.symm.trans hoid) (hfresh key' d' hd')
    · exact hw.known j d' hd' key d'' hd'' heq
    · exact (hw.wellFormed.unique.eq_of_lookup hd'' hd' heq).2

/-- An entry is deleted, and what is owed for it is remembered. -/
theorem accounted_delDirent {oid : Oid} {k : Except Fault Unit → DbProg Result}
    (h : w.procs i = .call (.delDirent oid) k) (hw : Accounted o ids w) :
    Accounted o ids (linkStep w i) := by
  obtain ⟨hidle, d, hread, rfl⟩ := permitted_of_accounted h hw
  have hstore := linkStep_store h
  have htrail := trailOf_self h
  cases hfind : w.store.dirents.find Dirent.oid d.oid with
  | none =>
      -- the entry is gone already
      have hcall : (DbCall.delDirent d.oid).routine w.store =
          .error (.code .errNaming) w.store := by
        rw [DbCall.routine, db2Del, get_bind, hfind]
        exact throw_apply
      rw [final_of_error hcall] at hstore
      rw [outcome_of_error hcall] at htrail
      exact accounted_of_same h hw hstore (congrArg Trail.stage htrail)
  | some e =>
      obtain ⟨hlookup, hoid⟩ := Table.lookup_of_find hfind
      have hd := hw.known i d hread e.1 e.2 hlookup hoid
      rw [hw.wellFormed.key_eq _ _ hlookup, hd] at hlookup
      have hcall : (DbCall.delDirent d.oid).routine w.store = .ok () _ :=
        db2Del_of_lookup hw.wellFormed hlookup
      rw [final_of_ok hcall] at hstore
      rw [outcome_of_ok hcall] at htrail
      have hstage : (trailOf (linkStep w i) i).stage = .removed d := by
        rw [htrail]
        show (trailOf w i).dirent.elim _ Stage.removed = _
        rw [hread]
        rfl
      have hlinks := links_delDirent (o := o) hlookup
      refine hw.of_dirents h ?_ (hw.balanced.of_same h ?_ ?_ fun hnone => ?_) ?_ ?_
      · rw [hstore]
        exact hw.wellFormed.delDirent d
      · rw [hstore]
        rfl
      · rw [hstore, hstage, hidle, ← hlinks]
        simp only [Stage.owed]
        split <;> omega
      · rw [(hw.balanced.absent hnone).1] at hlinks
        rw [hstage]
        refine if_neg fun ho => ?_
        rw [if_pos ho] at hlinks
        omega
      · intro hremoved
        rw [hstage] at hremoved
        cases hremoved
      · intro key d' hd'
        rw [hstore] at hd'
        exact (lookup_of_lookup_erase hd').2

/-- The request has dealt with an inode that it owes nothing to. -/
theorem accounted_of_settled {c : DbCall} {k : c.Reply → DbProg Result}
    (h : w.procs i = .call c k) (hw : Accounted o ids w)
    (hwf : WellFormed (linkStep w i).store)
    (hdirents : (linkStep w i).store.dirents = w.store.dirents)
    (hsettled : (trailOf (linkStep w i) i).stage = .settled)
    (hb : Balanced o (linkStep w i)) : Accounted o ids (linkStep w i) := by
  refine hw.of_dirents h hwf hb ?_ ?_
  · rw [hsettled]
    nofun
  · intro key d hd
    rwa [hdirents] at hd

/-- An inode is stored. If it is `o`, the count is the one that the request
has read, and what the request owes is added to it. -/
theorem accounted_putInode {inodeOid : Oid} {j : Inode} {b : Bool}
    {k : Except Fault Unit → DbProg Result}
    (h : w.procs i = .call (.putInode inodeOid j b) k)
    (hw : Accounted o ids w)
    (hcalm : inodeOid = o → Undisturbed o w i ∧ (Uncounted o w i →
      ∀ r ∈ w.store.inodes.lookup o, r.refCnt.toInt + 1 < 2 ^ 31)) :
    Accounted o ids (linkStep w i) := by
  obtain ⟨rfl, howed, hsettle⟩ := permitted_of_accounted h hw
  have hstore := linkStep_store h
  have hstage : (trailOf (linkStep w i) i).stage = .settled := by
    rw [trailOf_self h]
    rfl
  have hnone : Stage.owed o .settled = 0 := rfl
  have hdebt := debt_linkStep (o := o) h
  rw [hstage, hnone] at hdebt
  by_cases ho : j.entryObj.oid = o
  · obtain ⟨rfl, i', hread, hwhich⟩ := hsettle ho
    -- nobody stored the inode since the request read it, so what it writes is the
    -- count of now and its own share
    obtain ⟨hundisturbed, hfits⟩ := hcalm ho
    have hcall : (DbCall.putInode j.entryObj.oid j false).routine w.store =
        .ok () (w.store.putInode j) :=
      inodePut_of_notMem fun h => Bool.false_ne_true h.1
    rw [final_of_ok hcall] at hstore
    have hi' : w.store.inodes.lookup o = some i' := hundisturbed.trans hread
    obtain ⟨hpos, hsum⟩ := hw.balanced.present i' hi'
    have hj : (linkStep w i).store.inodes.lookup o = some j := by
      rw [hstore]
      exact lookup_putInode_self ho
    have hcount : 0 < j.refCnt.toInt ∧
        j.refCnt.toInt = i'.refCnt.toInt + (trailOf w i).stage.owed o := by
      rcases hwhich with ⟨hone, rfl⟩ | ⟨hone, rfl, hmore⟩
      · have hlt := hfits hone i' hi'
        rw [withRefCnt_refCnt, toInt_add_one (by omega) hlt, hone]
        exact ⟨by omega, rfl⟩
      · obtain ⟨hgt, hsub⟩ := toInt_of_sub_one_pos (by omega) hmore
        rw [withRefCnt_refCnt, hsub, hone]
        exact ⟨by omega, rfl⟩
    refine accounted_of_settled h hw ?_ ?_ hstage ⟨fun hnone => ?_, fun r hr => ?_⟩
    · rw [hstore]
      exact hw.wellFormed.putInode j
    · rw [hstore]
      rfl
    · rw [hj] at hnone
      cases hnone
    · rw [hj, Option.some.injEq] at hr
      subst hr
      rw [hdebt, hstore, links_putInode]
      exact ⟨hcount.1, by omega⟩
  · -- another inode, which is stored or refused
    have hzero : (trailOf w i).stage.owed o = 0 := by
      by_contra hne
      exact ho (howed hne)
    have hfinal : (linkStep w i).store = w.store ∨
        (linkStep w i).store = w.store.putInode j := by
      rw [hstore]
      by_cases hmem : b = true ∧ j.entryObj.oid ∈ w.store.inodes
      · obtain ⟨rfl, hmem⟩ := hmem
        have hcall : (DbCall.putInode j.entryObj.oid j true).routine w.store =
            .error (.code .errExist) w.store := inodePut_of_mem hmem
        exact .inl (final_of_error hcall)
      · have hcall : (DbCall.putInode j.entryObj.oid j b).routine w.store =
            .ok () (w.store.putInode j) := inodePut_of_notMem hmem
        exact .inr (final_of_ok hcall)
    refine accounted_of_settled h hw ?_ ?_ hstage
      (hw.balanced.of_same h ?_ ?_ fun _ => ?_)
    · rcases hfinal with heq | heq <;> rw [heq]
      · exact hw.wellFormed
      · exact hw.wellFormed.putInode j
    · rcases hfinal with heq | heq <;> rw [heq]
      rfl
    · rcases hfinal with heq | heq <;> rw [heq]
      exact lookup_putInode_ne ho
    · rw [hstage, hzero]
      rcases hfinal with heq | heq <;> rw [heq] <;> simp [Stage.owed]
    · rw [hstage]
      rfl

/-- An inode is deleted. If it is `o`, this was its last entry, and nobody
else owes anything. -/
theorem accounted_delInode {j : Inode} {k : Except Fault Unit → DbProg Result}
    (h : w.procs i = .call (.delInode j) k) (hw : Accounted o ids w)
    (hcalm : j.entryObj.oid = o →
      Undisturbed o w i ∧ ∀ m, m ≠ i → ¬ Uncounted o w m) :
    Accounted o ids (linkStep w i) := by
  obtain ⟨howed, hsettle⟩ := permitted_of_accounted h hw
  have hstore := linkStep_store h
  have hstage : (trailOf (linkStep w i) i).stage = .settled := by
    rw [trailOf_self h]
    rfl
  by_cases ho : j.entryObj.oid = o
  · obtain ⟨hone, i', hread, hlast⟩ := hsettle ho
    obtain ⟨hundisturbed, huncounted⟩ := hcalm ho
    have hi' : w.store.inodes.lookup o = some i' := hundisturbed.trans hread
    have hcall : (DbCall.delInode j).routine w.store =
        .ok () (w.store.delInode j.entryObj.oid) :=
      inodeDel_of_lookup (AList.lookup_isSome.mp (by rw [ho, hi']; rfl))
    rw [final_of_ok hcall, ho] at hstore
    obtain ⟨-, hsum⟩ := hw.balanced.present i' hi'
    rw [eq_one_of_sub_one hlast] at hsum
    -- the others owe nothing positive, so they owe nothing at all
    have hothers : ∀ m ∈ Finset.univ.erase i, (trailOf w m).stage.owed o ≤ 0 := by
      intro m hm
      exact owed_nonpos (huncounted m (Finset.ne_of_mem_erase hm))
    have hle := Finset.sum_nonpos hothers
    have hadd := Finset.add_sum_erase Finset.univ
      (fun m => (trailOf w m).stage.owed o) (Finset.mem_univ i)
    rw [debt, ← hadd, hone] at hsum
    have hzero := (Finset.sum_eq_zero_iff_of_nonpos hothers).mp (by omega)
    refine accounted_of_settled h hw ?_ ?_ hstage ⟨fun _ => ⟨?_, fun m => ?_⟩,
      fun r hr => ?_⟩
    · rw [hstore]
      exact hw.wellFormed.delInode o
    · rw [hstore]
      rfl
    · rw [hstore, links_delInode]
      omega
    · by_cases hm : m = i
      · subst hm
        rw [hstage]
        rfl
      · rw [trailOf_of_ne h hm]
        exact hzero m (Finset.mem_erase.mpr ⟨hm, Finset.mem_univ m⟩)
    · rw [hstore, lookup_delInode_self] at hr
      cases hr
  · -- another inode, which is deleted or not there
    have hzero : (trailOf w i).stage.owed o = 0 := by
      by_contra hne
      exact ho (howed hne)
    have hfinal : (linkStep w i).store = w.store ∨
        (linkStep w i).store = w.store.delInode j.entryObj.oid := by
      rw [hstore]
      by_cases hmem : j.entryObj.oid ∈ w.store.inodes
      · have hcall : (DbCall.delInode j).routine w.store = .ok () _ :=
          inodeDel_of_lookup hmem
        exact .inr (final_of_ok hcall)
      · have hcall : (DbCall.delInode j).routine w.store =
            .error (.code .errNaming) w.store := by
          rw [DbCall.routine, inodeDel, get_bind, if_neg hmem]
          exact throw_apply
        exact .inl (final_of_error hcall)
    refine accounted_of_settled h hw ?_ ?_ hstage
      (hw.balanced.of_same h ?_ ?_ fun _ => ?_)
    · rcases hfinal with heq | heq <;> rw [heq]
      · exact hw.wellFormed
      · exact hw.wellFormed.delInode _
    · rcases hfinal with heq | heq <;> rw [heq]
      rfl
    · rcases hfinal with heq | heq <;> rw [heq]
      exact lookup_delInode_ne ho
    · rw [hstage, hzero]
      rcases hfinal with heq | heq <;> rw [heq] <;> simp [Stage.owed]
    · rw [hstage]
      rfl

end Writes

/-! ### Runs -/

section Runs

variable {o : Oid} {ids : ι → Oid}

theorem accounted_linkStep (hinj : Function.Injective ids)
    (hne : ∀ j, ids j ≠ Oid.zero) {w : NamingWorld ι} {i : ι}
    (hw : Accounted o ids w) (hcalm : Calm o w i) :
    Accounted o ids (linkStep w i) := by
  cases h : w.procs i with
  | ret a =>
      rw [linkStep, World.step_of_ended _ (by rw [h]; rfl)]
      exact hw
  | fail e =>
      rw [linkStep, World.step_of_ended _ (by rw [h]; rfl)]
      exact hw
  | call c k =>
      have hnext : (w.procs i).next = some c := by
        rw [h]
        rfl
      have hcalm := hcalm c hnext
      cases c with
      | putDirent key d b => exact accounted_putDirent h hw hinj hne hcalm
      | delDirent oid => exact accounted_delDirent h hw
      | putInode inodeOid j b => exact accounted_putInode h hw hcalm
      | delInode j => exact accounted_delInode h hw hcalm
      | getDirent key => exact accounted_of_reading h trivial hw
      | getDirentByOid oid => exact accounted_of_reading h trivial hw
      | countDirents oid => exact accounted_of_reading h trivial hw
      | getDirents oid maxlen => exact accounted_of_reading h trivial hw
      | getInode oid => exact accounted_of_reading h trivial hw

theorem accounted_start {db : NamingDb} (hwf : WellFormed db)
    (hcount : RefCounted db o) {progs : ι → DbProg Result}
    (hobeys : ∀ i, (progs i).Obeys (countDiscipline o (ids i)) Trail.start)
    (hfresh : ∀ i k d, db.dirents.lookup k = some d → d.oid ≠ ids i) :
    Accounted o ids (World.start db progs) where
  wellFormed := hwf
  obeys := hobeys
  balanced := by
    have hdebt : debt o (World.start db progs) = 0 :=
      Finset.sum_eq_zero fun _ _ => rfl
    rw [refCounted_iff] at hcount
    refine ⟨fun hnone => ?_, fun r hr => ?_⟩
    · have hnone : db.inodes.lookup o = none := hnone
      rw [hnone] at hcount
      exact ⟨hcount, fun _ => rfl⟩
    · have hr : db.inodes.lookup o = some r := hr
      rw [hr] at hcount
      obtain ⟨hpos, heq⟩ := hcount
      rw [hdebt]
      have hlinks : (World.start db progs : NamingWorld ι).store.links o =
          db.links o := rfl
      rw [hlinks]
      exact ⟨by omega, by omega⟩
  unused i _ := ⟨hfresh i, nofun⟩
  known := nofun

/-- An inode that is named by an entry is there. -/
theorem Accounted.mem_inodes {w : NamingWorld ι} (hw : Accounted o ids w)
    {k : Db1Key} {d : Dirent} (hd : w.store.dirents.lookup k = some d)
    (hdo : d.inodeOid = o) : o ∈ w.store.inodes := by
  by_contra hnot
  have hlinks := (hw.balanced.absent (AList.lookup_eq_none.mpr hnot)).1
  have hpos : 0 < w.store.links o := links_pos_iff.mpr ⟨k, d, hd, hdo⟩
  omega

/-- Where all requests have ended, the count is right. -/
theorem Accounted.refCounted {w : NamingWorld ι} (hw : Accounted o ids w)
    (hend : ∀ i, (w.procs i).next = none) : RefCounted w.store o := by
  have howed : ∀ i, (trailOf w i).stage.owed o = 0 := by
    intro i
    have hobeys := hw.obeys i
    have hnext := hend i
    cases h : w.procs i with
    | ret a =>
        rw [h] at hobeys
        exact hobeys
    | fail e =>
        rw [h] at hobeys
        exact hobeys
    | call c k =>
        rw [h] at hnext
        cases hnext
  have hdebt : debt o w = 0 := Finset.sum_eq_zero fun i _ => howed i
  rw [refCounted_iff]
  cases hr : w.store.inodes.lookup o with
  | none => exact (hw.balanced.absent hr).1
  | some r =>
      obtain ⟨hpos, hsum⟩ := hw.balanced.present r hr
      rw [hdebt] at hsum
      exact ⟨by omega, by omega⟩

/-- Requests that link and remove entries start in a state that the server has
reached, and their calls interleave. If no call harms the inode `o`, then in
every state they come to the inode is there as long as an entry names it, and
when all of them have ended, its count is the number of these entries. -/
theorem refCounted_concurrent {Mac : Type} {oids : InitOids} (hoids : oids.Fresh)
    {run : List (Env Mac × Request Mac)}
    (hfresh : Run.Along step FreshStep (Server.init oids) run)
    (ho : o ∉ oids.inodes)
    (hfit : Run.Along step (LinksFit o) (Server.init oids) run)
    {requests : ι → Env Mac × Request Mac}
    (hrequests : ∀ i, (requests i).2.LinksOrRemoves)
    (hids : ∀ i,
      FreshStep (Run.exec step (Server.init oids) run) (requests i))
    (hinj : Function.Injective fun i => (requests i).1.direntOid) (fuel : ℕ)
    {schedule : List ι}
    (hcalm : Run.Along linkStep (Calm o)
      (World.start (Run.exec step (Server.init oids) run).db fun i =>
        Steps.handle (requests i).1 fuel (requests i).2) schedule) :
    let w := Run.exec linkStep
      (World.start (Run.exec step (Server.init oids) run).db fun i =>
        Steps.handle (requests i).1 fuel (requests i).2) schedule
    (∀ k d, w.store.dirents.lookup k = some d → d.inodeOid = o →
        o ∈ w.store.inodes) ∧
      ((∀ i, (w.procs i).next = none) → RefCounted w.store o) := by
  intro w
  have hzero : o ≠ Oid.zero := ne_zero_of_not_initial ho
  obtain ⟨hwf, hcounted⟩ := wellFormed_refCounted_exec hzero
    (wellFormed_refCounted_init hoids ho) hfresh hfit
  have hstart : Accounted o (fun i => (requests i).1.direntOid)
      (World.start (Run.exec step (Server.init oids) run).db fun i =>
        Steps.handle (requests i).1 fuel (requests i).2) :=
    accounted_start hwf hcounted
    (fun i => obeys_handle (requests i).1 fuel hzero (hrequests i))
    fun i => (hids i).dirent
  have hstep : ∀ (w : NamingWorld ι) i,
      Accounted o (fun i => (requests i).1.direntOid) w → Calm o w i →
      Accounted o (fun i => (requests i).1.direntOid) (linkStep w i) :=
    fun _ _ => accounted_linkStep hinj fun i => (hids i).direntOid_ne
  have hw : Accounted o (fun i => (requests i).1.direntOid) w :=
    Run.exec_invariant hstep hstart hcalm
  exact ⟨fun _ _ => hw.mem_inodes, hw.refCounted⟩

end Runs

/-! ### Two requests on one file -/

/-- The server after a file was created and linked. -/
def twoEntryServer : Server :=
  Run.exec step (Server.init countingOids) [createFileStep, createLinkStep 1 ['g']]

/-- Both entries are removed. -/
def twoUnlinks (i : Bool) : Env Unit × Request Unit :=
  if i then unlinkStep 3 ['g'] else unlinkStep 2 fileName

def twoUnlinksWorld : NamingWorld Bool :=
  World.start twoEntryServer.db fun i =>
    Steps.handle (twoUnlinks i).1 1 (twoUnlinks i).2

/-- One after the other, the requests remove the file. -/
theorem refCounted_concurrent_unlinks :
    let schedule := List.replicate 6 false ++ List.replicate 6 true
    let w := Run.exec linkStep twoUnlinksWorld schedule
    (∀ i, (w.procs i).next = none) ∧ RefCounted w.store (oidOf 11) := by
  intro schedule w
  have hrun : ∀ i, (w.procs i).next = none := by
    have hnone : ∀ i, (w.procs i).next.isNone := by decide +kernel
    exact fun i => Option.isNone_iff_eq_none.mp (hnone i)
  have hrequests : ∀ i, (twoUnlinks i).2.LinksOrRemoves := by
    intro i
    cases i <;> trivial
  have hids : ∀ i, FreshStep twoEntryServer (twoUnlinks i) := by decide
  have hinj : Function.Injective fun i => (twoUnlinks i).1.direntOid := by
    decide
  refine ⟨hrun, (refCounted_concurrent countingOids_fresh (by decide)
    (by decide) (by decide) hrequests hids hinj 1 ?_).2 hrun⟩
  decide +kernel

/-- Both read the count, then both delete their entries, and then both store
the count that they have read, less one. No entry is left, and the inode stays
with a count of one. -/
theorem concurrent_unlinks_lose_update :
    let schedule := [false, false, false, false, true, true, true, true,
      false, false, true, true]
    let w := Run.exec linkStep twoUnlinksWorld schedule
    (∀ i, (w.procs i).next.isNone) ∧ w.store.links (oidOf 11) = 0 ∧
      (w.store.inodes.lookup (oidOf 11)).map Inode.refCnt = some 1 := by
  refine ⟨?_, ?_, ?_⟩ <;> decide +kernel

end Lwfs.Naming
