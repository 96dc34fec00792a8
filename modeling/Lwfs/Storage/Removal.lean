import Lwfs.Storage.AttrLaws
import Lwfs.Storage.Sessions

/-!
What is left of an object that was removed.

A removal takes the object out of the table, unlinks its file, and removes its
attributes one by one, as a listing names them. Nothing of that comes back when
another object is created under the same id, in the same session or in one that
follows.
-/

namespace Lwfs.Storage

open SysLib Routine

variable {Mac : Type} {env : Env Mac} {root : Path} {oid : Oid} {s t : Store}

/-! ### The attributes -/

/-- Every name that is removed leads to its attribute, also one that runs on
behind its row. -/
theorem rmattrs_ok {names : List Name} (hs : WellKept s) {u : Unit}
    (h : sysioObjRmattrs env oid names s = .ok u t) (name : Name) :
    t.attrMap oid name =
      if name ∈ names.map (List.take nameLen) then none
      else s.attrMap oid name := by
  induction names generalizing s with
  | nil =>
      cases h
      simp
  | cons first names ih =>
      obtain ⟨_, v, hone, hloop⟩ := bind_eq_ok.mp h
      have hone : sysioObjRmattr env oid first s = .ok _ v := hone
      by_cases hremoves : Removes env oid first s
      · obtain ⟨e, hlookup, -, hrun⟩ := rmattr_of_removes hremoves
        rw [(hs _ e hlookup).db1Keygen_eq] at hrun
        obtain ⟨-, rfl⟩ := EStateM.Result.ok.inj (hrun.symm.trans hone)
        rw [ih (wellKept_erase hs rfl) hloop, attrMap_of_erase rfl]
        simp only [List.map_cons, List.mem_cons]
        rcases eq_or_ne name (first.take nameLen) with rfl | hne
        · rw [AttrMap.set_self, ite_self, if_pos (.inl rfl)]
        · rw [AttrMap.set_of_ne fun heq => hne heq.2]
          simp only [or_iff_right hne]
      · obtain ⟨rc, calls, hrun⟩ := rmattr_of_not_removes hremoves
        rw [hrun] at hone
        cases hone

theorem take_row_listed (hs : WellKept s) :
    ((listed s oid).map (AttrEntry.row · env.rowBehind)).map (List.take nameLen) =
      (listed s oid).map AttrEntry.nameField := by
  rw [List.map_map]
  refine List.map_congr_left fun e he => ?_
  have hkept := hs _ e ((mem_listed hs).mp he).2
  have hlen := hkept.sendable.1
  rw [Function.comp_apply, hkept.row_eq]
  split
  · rw [List.append_nil, List.take_of_length_le hlen]
  · exact List.take_left' (by omega)

/-- Where all attributes of an object are removed, none is left. -/
theorem rmAllAttrs_ok (hs : WellKept s) {u : Unit}
    (h : rmAllAttrs env oid s = .ok u t) (name : Name) :
    t.attrMap oid name = none := by
  obtain ⟨names, v, hlist, hloop⟩ := bind_eq_ok.mp h
  obtain ⟨hout, hfinal⟩ := mapOutcome_eq_ok.mp hlist
  have hv : v.attrs = s.attrs := by
    rw [← hfinal]
    exact (passes_sameAttrs env []).sysioObjListattrs oid s
  rw [rmattrs_ok (wellKept_of_attrs hs hv) hloop, attrMap_of_attrs hv]
  rcases listattrs_cases env oid s with
    ⟨-, hrun⟩ | ⟨-, hnil, hrun⟩ | ⟨-, -, -, hrun⟩ | ⟨-, -, -, hrun⟩
  · rw [outcome_of_error hrun] at hout
    cases hout
  · -- there was none before
    rw [(listed_eq_nil hs).mp hnil, ite_self]
  · rw [outcome_of_error hrun] at hout
    cases hout
  · rw [outcome_of_ok hrun] at hout
    cases hout
    rw [take_row_listed hs]
    split
    · rfl
    · next hnot =>
      rwa [mem_map_listed hs, Option.not_isSome_iff_eq_none] at hnot

/-! ### Other objects -/

/-- One object is as before: whether it exists, its data, its attributes. -/
structure SameObject (root : Path) (oid : Oid) (s t : Store) : Prop where
  existence : (sysioObjExists oid).outcome t = (sysioObjExists oid).outcome s
  object : t.object root oid = s.object root oid
  attrs : t.attrMap oid = s.attrMap oid

theorem exists_eq_false :
    (sysioObjExists oid).outcome s = .ok false ↔
      oidHashSearch s.oidHash oid = none := by
  have hout : (sysioObjExists oid).outcome s =
      .ok (oidHashSearch s.oidHash oid).isSome := rfl
  rw [hout, Except.ok.injEq, Option.isSome_eq_false_iff, Option.isNone_iff_eq_none]

theorem sameObject_of_lookup
    (hsearch : oidHashSearch t.oidHash oid = oidHashSearch s.oidHash oid)
    (hname : t.files.names.lookup (fileName shortPath root oid) =
      s.files.names.lookup (fileName shortPath root oid))
    (hcontents : ∀ i,
      s.files.names.lookup (fileName shortPath root oid) = some i →
        t.files.contents i = s.files.contents i)
    (hattrs : t.attrMap oid = s.attrMap oid) : SameObject root oid s t where
  existence := by
    show Except.ok (oidHashSearch t.oidHash oid).isSome = _
    rw [hsearch]
    rfl
  object := by
    rw [Store.object, Store.object, hsearch, hname]
    cases hlookup : s.files.names.lookup (fileName shortPath root oid) with
    | none => rfl
    | some i => rw [Option.map_some, Option.map_some, hcontents i hlookup]
  attrs := hattrs

theorem search_eraseP {l : List (Oid × ℕ)} {oid' : Oid} (hne : oid' ≠ oid) :
    oidHashSearch (l.eraseP fun e => e.1 = oid) oid' = oidHashSearch l oid' := by
  induction l with
  | nil => rfl
  | cons e l ih =>
      rcases eq_or_ne e.1 oid with rfl | heq
      · simp [oidHashSearch, hne.symm]
      · have ih : (List.find? _ _).map Prod.snd = (List.find? _ _).map Prod.snd := ih
        rw [List.eraseP_cons_of_neg (by simpa using heq)]
        simp only [oidHashSearch, List.find?_cons]
        split
        · rfl
        · exact ih

/-! ### The removal -/

/-- Nothing is left of the object, and the others are as before. -/
structure Removed (root : Path) (oid : Oid) (s t : Store) : Prop where
  gone : (sysioObjExists oid).outcome t = .ok false
  unlinked : (sysioObjExists oid).outcome s = .ok true →
    fileName shortPath root oid ∉ t.files.names
  attrs : ∀ name, t.attrMap oid name = none
  others : ∀ oid' ≠ oid, SameObject root oid' s t

/-- However a removal ends, the object is forgotten. -/
theorem final_remove (h : Tabled root s) :
    (sysioObjExists oid).outcome ((sysioObjRemove env root oid).final s) =
      .ok false := by
  have hsame : SameData ((removeObjByOid env root oid).final s)
      ((sysioObjRemove env root oid).final s) :=
    within_final_bind (fun _ => rmAllAttrs_sameData oid) s
  obtain ⟨hhash, -⟩ := final_removeObjByOid env root oid s
  rw [exists_eq_false, ← Option.not_isSome_iff_eq_none, search_isSome,
    hsame.oidHash, hhash]
  rintro ⟨e, he, heq⟩
  exact notMem_eraseP h.keys e he heq

theorem removed_of_ok (hroot : Untruncated root) (hs : Tidy root s) {u : Unit}
    (h : sysioObjRemove env root oid s = .ok u t) : Removed root oid s t := by
  obtain ⟨_, v, hobj, hattrs⟩ := bind_eq_ok.mp h
  have hsame := within_of_ok (rmAllAttrs_sameData oid) hattrs
  obtain ⟨hhash, hnames, hcontents, hkept⟩ := removeObjByOid_ok hobj
  rw [← hsame.oidHash] at hhash
  rw [← hsame.names] at hnames
  rw [← hsame.contents] at hcontents
  have hv : WellKept v := wellKept_of_attrs hs.attrs hkept
  obtain ⟨-, hothers⟩ := within_of_ok (rmAllAttrs_confined oid) hattrs hv
  refine ⟨?_, fun hexists => ?_, rmAllAttrs_ok hv hattrs, fun oid' hne => ?_⟩
  · rw [← final_of_ok h]
    exact final_remove hs.tabled
  · have hsome : (oidHashSearch s.oidHash oid).isSome = true :=
      Except.ok.inj hexists
    rw [if_pos hsome] at hnames
    rw [hnames.2, AList.mem_erase]
    exact fun hmem => hmem.1 rfl
  · refine sameObject_of_lookup ?_ ?_ (fun i _ => by rw [hcontents]) ?_
    · rw [hhash, search_eraseP hne]
    · have hpath : fileName shortPath root oid' ≠ fileName shortPath root oid :=
        fun heq => hne (fileName_inj hroot heq)
      split_ifs at hnames
      · rw [hnames.2, AList.lookup_erase_ne hpath]
      · rw [hnames]
    · funext name
      rw [hothers oid' hne name, attrMap_of_attrs hkept]

theorem Tidy.remove (hroot : Untruncated root) (hs : Tidy root s) (oid : Oid) :
    Tidy root ((sysioObjRemove env root oid).final s) := by
  have hpasses := passes_grows env root
  have hgrows : Within (Grows root) (sysioObjRemove env root oid) :=
    within_bind (hpasses.removeObjByOid oid) fun _ =>
      rmAllAttrs_within (fun _ _ _ => grows_of_files rfl) oid
  have hconfined : Within (Confined oid) (sysioObjRemove env root oid) :=
    within_bind (confined_of_sameAttrs
      ((passes_sameAttrs env root).removeObjByOid oid) oid) fun _ =>
        rmAllAttrs_confined oid
  exact hs.of_grows hroot (hgrows s) (tabled_remove hroot hs.tabled oid)
    (hconfined s hs.attrs).1

/-! ### The sessions that follow -/

/-- A step of the server after which the object does not exist. -/
def Without (Mac : Type) (root : Path) (oid : Oid) (s t : Server) : Prop :=
  Session Mac root s t ∧ (sysioObjExists oid).outcome t.store = .ok false

/-- A creation that has not left its object behind has not come to the
attribute. -/
theorem createOp_without {obj : Obj} {cap : Cap Mac}
    (h : oidHashSearch ((createOp env root obj cap).final s).oidHash obj.oid =
      none) :
    ((createOp env root obj cap).final s).attrs = s.attrs := by
  have hcreated : ((sysioObjCreate env root obj.oid).final s).attrs = s.attrs :=
    (passes_sameAttrs env root).sysioObjCreate obj.oid s
  have hsame : SameData ((sysioObjCreate env root obj.oid).final s)
      ((createOp env root obj cap).final s) :=
    within_final_bind (fun _ => within_mapOutcome
      (setattr_within (fun _ _ _ => ⟨rfl, rfl, rfl⟩) obj.oid _ _) _) s
  rw [hsame.oidHash] at h
  cases hrun : sysioObjCreate env root obj.oid s with
  | error e u =>
      rw [final_of_error hrun] at hcreated
      rwa [createOp, final_of_error (bind_of_error hrun)]
  | ok _ u =>
      obtain ⟨-, -, -, hhash, -⟩ := create_ok hrun
      rw [final_of_ok hrun, hhash] at h
      simp [oidHashSearch] at h

/-- No request gives attributes to an object that does not exist and is not
created by it. -/
theorem handle_without {req : Request Mac} (hreq : req.Sendable) (hs : WellKept s)
    (hbefore : oidHashSearch s.oidHash oid = none)
    (hafter : oidHashSearch ((handle env root req).final s).oidHash oid = none) :
    ((handle env root req).final s).attrMap oid = s.attrMap oid := by
  rcases eq_or_ne oid req.obj.oid with rfl | hne
  · by_cases hadmitted : Admitted env req s
    · have hrun : handle env root req s = operation env root req s :=
        handle_of_admitted hadmitted
      have hnot : ¬ (oidHashSearch s.oidHash req.obj.oid).isSome := by
        rw [hbefore]
        exact Bool.false_ne_true
      cases req
      case createObj obj cap =>
        have hfinal : (handle env root (.createObj obj cap)).final s =
            (createOp env root obj cap).final s := by
          calc (handle env root (.createObj obj cap)).final s
              = (operation env root (.createObj obj cap)).final s := by
                simp only [final, hrun]
            _ = (createOp env root obj cap).final s := final_map
        rw [hfinal] at hafter ⊢
        rw [attrMap_of_attrs (createOp_without hafter)]
      all_goals exact absurd (hadmitted.1 rfl) hnot
    · obtain ⟨e, herror⟩ := handle_of_not_admitted root hadmitted
      rw [final_of_error herror]
  · funext name
    exact (handle_confined hreq s hs).2 oid hne name

/-- While the object does not exist, it has no attributes. -/
theorem without_run (hroot : Untruncated root) {s u : Server}
    (hs : Tidy root s.store) (hgone : (sysioObjExists oid).outcome s.store = .ok false)
    (hnone : ∀ name, s.store.attrMap oid name = none)
    (hrun : Relation.ReflTransGen (Without Mac root oid) s u) :
    Tidy root u.store ∧ (sysioObjExists oid).outcome u.store = .ok false ∧
      ∀ name, u.store.attrMap oid name = none := by
  induction hrun with
  | refl => exact ⟨hs, hgone, hnone⟩
  | tail _ hstep ih =>
      obtain ⟨htidy, hbefore, hno⟩ := ih
      obtain ⟨hsession, hafter⟩ := hstep
      refine ⟨htidy.session hroot hsession, hafter, ?_⟩
      rw [exists_eq_false] at hbefore hafter
      cases hsession with
      | request env req hup _ hsendable =>
          rw [step, if_pos hup] at hafter ⊢
          show ∀ name, ((handle env root req).final _).attrMap oid name = none
          rw [handle_without hsendable htidy.attrs hbefore hafter]
          exact hno
      | start env dNames hlist hinit =>
          obtain ⟨-, hattrs, -, -⟩ := sysioObjInit_ok htidy.only hlist hinit
          rw [attrMap_of_attrs hattrs]
          exact hno

/-! ### The creation -/

/-- The object is as new, and the others are as before. -/
structure Anew (root : Path) (oid : Oid) (s t : Store) : Prop where
  empty : t.object root oid = some []
  attrs : ∀ name, t.attrMap oid name = none
  others : ∀ oid' ≠ oid, SameObject root oid' s t

/-- A file is emptied as it is created, and it shares its inode with no
other. -/
theorem creat_contents (env : Env Mac) (hs : Numbered s.files) (path : Path) :
    ((s.creat env path).files.names.lookup path).map
      (s.creat env path).files.contents = some [] ∧
    ∀ path' ≠ path, ∀ i, s.files.names.lookup path' = some i →
      (s.creat env path).files.contents i = s.files.contents i := by
  simp only [Store.creat, Files.sysCreat, reduceCtorEq, if_false]
  cases hlookup : s.files.names.lookup path with
  | some inode =>
      refine ⟨?_, fun path' hne i hi => Function.update_of_ne ?_ _ _⟩
      · simp [hlookup]
      · rintro rfl
        exact hne (hs.inj path' path i hi hlookup)
  | none =>
      refine ⟨?_, fun path' hne i hi => Function.update_of_ne ?_ _ _⟩
      · simp [AList.lookup_insert]
      · rintro rfl
        exact absurd (hs.lt path' _ hi) (Nat.lt_irrefl _)

theorem anew_of_ok (hroot : Untruncated root) (hs : Tidy root s)
    (hnone : ∀ name, s.attrMap oid name = none) {u : Unit}
    (h : sysioObjCreate env root oid s = .ok u t) : Anew root oid s t := by
  obtain ⟨-, hnames, hcontents, hhash, hattrs⟩ := create_ok h
  obtain ⟨hempty, hkeep⟩ :=
    creat_contents env hs.numbered (fileName shortPath root oid)
  obtain ⟨-, hlookup⟩ := creat_names env s (fileName shortPath root oid)
  rw [← hnames, ← hcontents] at hempty
  rw [← hcontents] at hkeep
  rw [← hnames] at hlookup
  refine ⟨?_, ?_, fun oid' hne => ?_⟩
  · have hfound : oidHashSearch t.oidHash oid = some s.nextEl := by
      rw [hhash]
      simp [oidHashSearch]
    rw [Store.object, hfound]
    exact hempty
  · rw [attrMap_of_attrs hattrs]
    exact hnone
  · have hpath : fileName shortPath root oid' ≠ fileName shortPath root oid :=
      fun heq => hne (fileName_inj hroot heq)
    refine sameObject_of_lookup ?_ (hlookup _ hpath) (hkeep _ hpath) ?_
    · rw [hhash]
      simp [oidHashSearch, hne.symm]
    · rw [attrMap_of_attrs hattrs]

/-- In every state that sessions lead to, an object that was removed does not
exist and has no attributes. While it does not exist, over any further requests
and any further sessions, an object that is created under its id is empty and has
no attributes. Neither the removal nor the creation changes another object. -/
theorem no_data_survives_removal (hroot : Untruncated root) {s : Server}
    (hs : Reached Mac root s) (env : Env Mac) {t : Store}
    (hremove : sysioObjRemove env root oid s.store = .ok () t) :
    Removed root oid s.store t ∧
    ∀ u, Relation.ReflTransGen (Without Mac root oid) ⟨t, true⟩ u →
      ∀ env' : Env Mac, ∀ v,
        sysioObjCreate env' root oid u.store = .ok () v →
          Anew root oid u.store v := by
  have htidy := hs.tidy hroot
  have hremoved := removed_of_ok hroot htidy hremove
  refine ⟨hremoved, fun u hrun env' v hcreate => ?_⟩
  have ht : Tidy root t := by
    have hfinal : Tidy root ((sysioObjRemove env root oid).final s.store) :=
      htidy.remove hroot oid
    rwa [final_of_ok hremove] at hfinal
  obtain ⟨hu, -, hnone⟩ := without_run hroot ht hremoved.gone hremoved.attrs hrun
  exact anew_of_ok hroot hu hnone hcreate

/-- An object with an attribute and three bytes is removed, the server is started
again, and the object is created again. -/
theorem no_data_survives_one :
    let root : Path := ['/', 'r']
    let env : Env Unit := Env.quiet fun _ => none
    let cap : Cap Unit :=
      ⟨⟨1, containerWrite, ⟨Oid.zero, Octets.fill 20 0⟩⟩, ()⟩
    let run : List (Env Unit × Request Unit) :=
      [(env, .createObj Obj.zero cap), (env, .setattr Obj.zero ⟨[97], [1]⟩ cap),
        (env, .write Obj.zero 0 [1, 2, 3] cap)]
    let init := (sysioObjInit env root [['.'], ['.', '.']]).final
      Store.empty.stopped
    let s := (Run.exec (step root) ⟨init, true⟩ run).store
    let t := (sysioObjRemove env root Oid.zero).final s
    let u := (sysioObjInit env root [['.'], ['.', '.']]).final t.stopped
    s.object root Oid.zero = some [1, 2, 3] ∧
      s.attrMap Oid.zero [97] = some [1] ∧
      Removed root Oid.zero s t ∧
      Anew root Oid.zero u ((sysioObjCreate env root Oid.zero).final u) := by
  intro root env cap run init s t u
  have hroot : Untruncated root := untruncated_iff.mpr (by decide)
  have hinit : sysioObjInit env root [['.'], ['.', '.']] Store.empty.stopped =
      .ok () init := outcome_eq_ok.mp (by decide +kernel)
  have hattr : Attr.Sendable ⟨[97], [1]⟩ := ⟨⟨by decide, by decide⟩, by decide⟩
  have hcreate : Request.Truthful root ⟨init, true⟩
      (env, .createObj Obj.zero cap) := fun _ _ _ _ h => by cases h
  have hreached : Reached Unit root (Run.exec (step root) ⟨init, true⟩ run) := by
    refine (((Relation.ReflTransGen.single ?_).tail
      (.request env _ rfl hcreate trivial)).tail
      (.request env _ (by decide +kernel) (fun _ _ h => by cases h) hattr)).tail
      (.request env _ (by decide +kernel) (fun _ _ h => by cases h) trivial)
    exact .start env _ (listing_empty root rfl) hinit
  have hremove : sysioObjRemove env root Oid.zero s = .ok () t :=
    outcome_eq_ok.mp (by decide +kernel)
  have hstart : sysioObjInit env root [['.'], ['.', '.']] t.stopped = .ok () u :=
    outcome_eq_ok.mp (by decide +kernel)
  have hwithout : Without Unit root Oid.zero ⟨t, true⟩ ⟨u, true⟩ :=
    ⟨.start env _ (listing_empty root (by decide +kernel)) hstart,
      by decide +kernel⟩
  have hcreated : sysioObjCreate env root Oid.zero u =
      .ok () ((sysioObjCreate env root Oid.zero).final u) :=
    outcome_eq_ok.mp (by decide +kernel)
  obtain ⟨hremoved, hanew⟩ :=
    no_data_survives_removal hroot hreached env hremove
  exact ⟨by decide +kernel, by decide +kernel, hremoved,
    hanew _ (.single hwithout) env _ hcreated⟩

end Lwfs.Storage
