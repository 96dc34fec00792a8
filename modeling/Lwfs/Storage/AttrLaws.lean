import Lwfs.Storage.Attributes

/-!
The laws of a map for the attributes.

After a setting, the attribute that was set is read back, the listing has the
names that are there, and a removal takes out what it names. The laws hold up to
the names that fill their array: those are read and listed together with the
memory that stands behind them.
-/

namespace Lwfs.Storage

open SysLib Routine

/-! ### What a listing and a reading show -/

section Shown

variable {s : Store} {oid : Oid} {name : Name} {e : AttrEntry}

theorem mem_listed (hs : WellKept s) :
    e ∈ listed s oid ↔
      e.oid = oid ∧ s.attrs.lookup ⟨oid, e.nameField⟩ = some e := by
  rw [Table.mem_filter]
  constructor
  · rintro ⟨key, hlookup, rfl⟩
    have hkey := (hs key e hlookup).key_eq
    exact ⟨rfl, hkey ▸ hlookup⟩
  · rintro ⟨hoid, hlookup⟩
    exact ⟨_, hlookup, hoid⟩

theorem nodup_listed (hs : WellKept s) (oid : Oid) :
    ((listed s oid).map AttrEntry.nameField).Nodup := by
  have hkeys : ((listed s oid).map fun e =>
      (⟨e.oid, e.nameField⟩ : Db1Key)).Nodup :=
    Table.nodup_map_filter fun key e hlookup => (hs key e hlookup).key_eq
  have hmap : ((listed s oid).map fun e => (⟨e.oid, e.nameField⟩ : Db1Key)) =
      ((listed s oid).map AttrEntry.nameField).map fun name => ⟨oid, name⟩ := by
    rw [List.map_map]
    exact List.map_congr_left fun e he => by
      rw [((mem_listed hs).mp he).1]
      rfl
  rw [hmap] at hkeys
  exact hkeys.of_map _

theorem mem_map_listed (hs : WellKept s) :
    name ∈ (listed s oid).map AttrEntry.nameField ↔
      (s.attrMap oid name).isSome := by
  rw [List.mem_map, Option.isSome_iff_exists]
  constructor
  · rintro ⟨e, he, rfl⟩
    exact ⟨_, attrMap_eq_some.mpr ⟨e, ((mem_listed hs).mp he).2, rfl⟩⟩
  · rintro ⟨v, hv⟩
    obtain ⟨e, hlookup, -⟩ := attrMap_eq_some.mp hv
    have hkey := (hs _ e hlookup).key_eq
    simp only [Db1Key.mk.injEq] at hkey
    obtain ⟨hoid, hname⟩ := hkey
    refine ⟨e, (mem_listed hs).mpr ⟨hoid.symm, ?_⟩, hname.symm⟩
    rwa [← hname]

theorem listed_eq_nil (hs : WellKept s) :
    listed s oid = [] ↔ ∀ name, s.attrMap oid name = none := by
  constructor
  · intro hnil name
    rw [← Option.not_isSome_iff_eq_none, ← mem_map_listed hs, hnil]
    exact List.not_mem_nil
  · intro hnone
    refine List.eq_nil_iff_forall_not_mem.mpr fun e he => ?_
    have hsome := (mem_map_listed hs).mp (List.mem_map_of_mem he)
    rw [hnone] at hsome
    cases hsome

/-- No attribute has a name that is too long. -/
theorem length_le_of_isSome (hs : WellKept s)
    (h : (s.attrMap oid name).isSome) : name.length ≤ nameLen := by
  obtain ⟨e, he, rfl⟩ := List.mem_map.mp ((mem_map_listed hs).mpr h)
  exact (hs _ e ((mem_listed hs).mp he).2).sendable.1

/-- The name of the attribute fills its array, and the value begins with a byte
that is not zero. -/
def Spills (s : Store) (oid : Oid) (name : Name) : Prop :=
  name.length = nameLen ∧ ∃ b bs, s.attrMap oid name = some (b :: bs) ∧ b ≠ 0

/-- The name of the attribute fills its row, and a string goes on behind the
row. -/
def RunsOn {Mac : Type} (env : Env Mac) (s : Store) (oid : Oid) : Prop :=
  ∃ name, name.length = nameLen ∧ (s.attrMap oid name).isSome ∧
    cString (env.rowBehind name) ≠ []

theorem Kept.name_eq_iff {key : Db1Key} (h : Kept key e)
    (hlookup : s.attrs.lookup ⟨oid, name⟩ = some e) (hname : e.nameField = name) :
    e.name = name ↔ ¬ Spills s oid name := by
  have hmap : s.attrMap oid name = some e.value :=
    attrMap_eq_some.mpr ⟨e, hlookup, rfl⟩
  have hlen := h.sendable.1
  have hspills : Spills s oid name ↔ e.nameField.length = nameLen ∧
      ∃ b bs, e.value = b :: bs ∧ b ≠ 0 := by
    simp [Spills, hmap, hname]
  rw [hspills, h.name_eq, ← hname, List.append_right_eq_self]
  split
  · next hlt => exact iff_of_true rfl fun hfull => by omega
  · next hfull =>
    have heq : e.nameField.length = nameLen := by omega
    cases hvalue : e.value with
    | nil => simp [h.rest_of_nil hvalue, cString]
    | cons b bs => simp [heq, cString, List.takeWhile_cons]

theorem row_of_not_runsOn {Mac : Type} {env : Env Mac} (hs : WellKept s)
    (hruns : ¬ RunsOn env s oid) :
    (listed s oid).map (AttrEntry.row · env.rowBehind) =
      (listed s oid).map AttrEntry.nameField := by
  refine List.map_congr_left fun e he => ?_
  have hlookup := ((mem_listed hs).mp he).2
  have hkept := hs _ e hlookup
  have hlen := hkept.sendable.1
  rw [hkept.row_eq, List.append_right_eq_self]
  split
  · rfl
  · next hfull =>
    by_contra hbehind
    exact hruns ⟨e.nameField, by omega,
      (mem_map_listed hs).mp (List.mem_map_of_mem he), hbehind⟩

/-- A row that runs on is longer than any name. -/
theorem length_row_of_runsOn {Mac : Type} {env : Env Mac} (hs : WellKept s)
    (hruns : RunsOn env s oid) :
    ∃ row ∈ (listed s oid).map (AttrEntry.row · env.rowBehind),
      nameLen < row.length := by
  obtain ⟨name, hlen, hsome, hbehind⟩ := hruns
  obtain ⟨e, he, rfl⟩ := List.mem_map.mp ((mem_map_listed hs).mpr hsome)
  refine ⟨_, List.mem_map_of_mem he, ?_⟩
  have hnot : ¬ e.nameField.length < nameLen := by omega
  have hpos := List.length_pos_iff.mpr hbehind
  rw [(hs _ e ((mem_listed hs).mp he).2).row_eq, if_neg hnot, List.length_append]
  omega

end Shown

/-! ### The laws of a map -/

section Laws

variable {Mac : Type} (env : Env Mac) (oid : Oid) (s : Store)

/-- An operation does to the attributes what it says, and no more, and it is
answered if the database answers. -/
structure Lawful (op : AttrOp) : Prop where
  meaning : ∀ r t, op.run env oid s = .ok r t →
    op.Meaning oid s.attrMap t.attrMap r
  others : ∀ oid' name, ¬ (oid' = oid ∧ name ∈ op.written) →
    ((op.run env oid).final s).attrMap oid' name = s.attrMap oid' name
  answered : (∀ n, env.outcome n ≠ .fail) → op.Defined (s.attrMap oid) →
    ∃ r t, op.run env oid s = .ok r t
  survives : survives ((op.run env oid).outcome s) = true

/-- The operation reads a name of `LWFS_NAME_LEN` characters together with what
stands behind it, or it lists attributes that it could not count. -/
def Garbles : AttrOp → Prop
  | .getattr name => env.outcome s.calls ≠ .fail ∧ Spills s oid name
  | .getattrs names =>
      (∀ i < names.length, env.outcome (s.calls + i) ≠ .fail) ∧
        (∀ name ∈ names, (s.attrMap oid name).isSome) ∧
          ∃ name ∈ names, Spills s oid name
  | .listattrs => env.outcome (s.calls + 1) ≠ .fail ∧
      (env.outcome s.calls = .fail ∧ (∃ name, (s.attrMap oid name).isSome) ∨
        env.outcome s.calls ≠ .fail ∧ RunsOn env s oid)
  | _ => False

variable {env oid s} {t : Store} {op : AttrOp}

theorem lawful_of_ok {r : Result} (hrun : op.run env oid s = .ok r t)
    (hmeaning : op.Meaning oid s.attrMap t.attrMap r)
    (hothers : ∀ oid' name, ¬ (oid' = oid ∧ name ∈ op.written) →
      t.attrMap oid' name = s.attrMap oid' name) : Lawful env oid s op where
  meaning r' t' hrun' := by
    obtain ⟨rfl, rfl⟩ := EStateM.Result.ok.inj (hrun.symm.trans hrun')
    exact hmeaning
  others := by
    rw [final_of_ok hrun]
    exact hothers
  answered _ _ := ⟨r, t, hrun⟩
  survives := by
    rw [outcome_of_ok hrun]
    rfl

theorem lawful_of_error {rc : ReturnCode}
    (hrun : op.run env oid s = .error (.code rc) t)
    (hothers : ∀ oid' name, ¬ (oid' = oid ∧ name ∈ op.written) →
      t.attrMap oid' name = s.attrMap oid' name)
    (hrefused : (∃ n, env.outcome n = .fail) ∨ ¬ op.Defined (s.attrMap oid)) :
    Lawful env oid s op where
  meaning r' t' hrun' := by
    rw [hrun] at hrun'
    cases hrun'
  others := by
    rw [final_of_error hrun]
    exact hothers
  answered hanswers hdefined := by
    rcases hrefused with ⟨n, hn⟩ | hundefined
    · exact absurd hn (hanswers n)
    · exact absurd hdefined hundefined
  survives := by
    rw [outcome_of_error hrun]
    rfl

/-! ### Setting -/

theorem lawful_setattr {attr : Attr} (hattr : attr.Sendable) :
    Lawful env oid s (.setattr attr) := by
  rcases setattr_cases env oid s hattr with
    ⟨e, -, -, hvalue, hrun⟩ | ⟨hcall, hrun⟩
  · have hmap := attrMap_of_insert (s := s) (t := { s.called with
      attrs := s.attrs.insert ⟨oid, attr.name⟩ e }) rfl
    refine lawful_of_ok (map_of_ok hrun) ⟨rfl, ?_⟩ fun oid' name hnot => ?_
    · rw [hmap, hvalue]
    · rw [hmap]
      refine AttrMap.set_of_ne fun heq => hnot ⟨heq.1, ?_⟩
      exact heq.2 ▸ List.mem_singleton_self _
  · exact lawful_of_error (map_of_error hrun) (fun _ _ _ => rfl)
      (.inl ⟨_, hcall⟩)

/-- A loop of settings stops at the first failure, and what it has set so far
stays. -/
theorem setattrs_cases (env : Env Mac) (oid : Oid) (s : Store) {attrs : List Attr}
    (hattrs : ∀ attr ∈ attrs, attr.Sendable) :
    (∃ t, sysioObjSetattrs env oid attrs s = .ok () t ∧
      t.attrMap =
        attrs.foldl (fun m a => m.set oid a.name (some a.value)) s.attrMap) ∨
    ((∃ n, env.outcome n = .fail) ∧ ∃ rc t,
      sysioObjSetattrs env oid attrs s = .error (.code rc) t ∧
      ∀ oid' name, ¬ (oid' = oid ∧ name ∈ attrs.map Attr.name) →
        t.attrMap oid' name = s.attrMap oid' name) := by
  induction attrs generalizing s with
  | nil => exact .inl ⟨s, rfl, rfl⟩
  | cons attr attrs ih =>
      obtain ⟨hattr, hrest⟩ := List.forall_mem_cons.mp hattrs
      have hcons : sysioObjSetattrs env oid (attr :: attrs) =
          sysioObjSetattr env oid attr.name attr.value >>= fun _ =>
            sysioObjSetattrs env oid attrs := rfl
      rw [hcons]
      rcases setattr_cases env oid s hattr with
        ⟨e, -, -, hvalue, hrun⟩ | ⟨hcall, hrun⟩
      · let u : Store := { s.called with
          attrs := s.attrs.insert ⟨oid, attr.name⟩ e }
        have hmap : u.attrMap = s.attrMap.set oid attr.name (some attr.value) := by
          rw [← hvalue]
          exact attrMap_of_insert rfl
        rw [bind_of_ok hrun]
        rcases ih u hrest with ⟨t, hloop, ht⟩ | ⟨hfail, rc, t, hloop, ht⟩
        · refine .inl ⟨t, hloop, ?_⟩
          rw [ht, hmap, List.foldl_cons]
        · refine .inr ⟨hfail, rc, t, hloop, fun oid' name hnot => ?_⟩
          rw [List.map_cons, List.mem_cons] at hnot
          rw [ht oid' name fun h => hnot ⟨h.1, .inr h.2⟩, hmap]
          exact AttrMap.set_of_ne fun h => hnot ⟨h.1, .inl h.2⟩
      · exact .inr ⟨⟨_, hcall⟩, _, _, bind_of_error hrun, fun _ _ _ => rfl⟩

theorem foldl_set_of_notMem {α : Type} {l : List α} {key : α → Name}
    {value : α → Option (List UInt8)} {m : AttrMap} {oid' : Oid} {name : Name}
    (h : ¬ (oid' = oid ∧ name ∈ l.map key)) :
    l.foldl (fun m a => m.set oid (key a) (value a)) m oid' name = m oid' name := by
  induction l generalizing m with
  | nil => rfl
  | cons a l ih =>
      rw [List.map_cons, List.mem_cons] at h
      rw [List.foldl_cons, ih fun hmem => h ⟨hmem.1, .inr hmem.2⟩]
      exact AttrMap.set_of_ne fun heq => h ⟨heq.1, .inl heq.2⟩

theorem lawful_setattrs {attrs : List Attr}
    (hattrs : ∀ attr ∈ attrs, attr.Sendable) :
    Lawful env oid s (.setattrs attrs) := by
  rcases setattrs_cases env oid s hattrs with
    ⟨t, hrun, ht⟩ | ⟨hfail, rc, t, hrun, hothers⟩
  · refine lawful_of_ok (map_of_ok hrun) ⟨rfl, ht⟩ fun oid' name hnot => ?_
    rw [ht]
    exact foldl_set_of_notMem hnot
  · exact lawful_of_error (map_of_error hrun) hothers (.inl hfail)

/-! ### Removing -/

theorem lawful_rmattr (hs : WellKept s) {name : Name} (hname : Sendable name) :
    Lawful env oid s (.rmattr name) := by
  rcases rmattr_cases env oid hs hname with
    ⟨hsome, hrun⟩ | ⟨hrefused, rc, calls, hrun⟩
  · have hmap := attrMap_of_erase (s := s) (t := { s with
      attrs := s.attrs.erase ⟨oid, name⟩
      calls := s.calls + 2 }) rfl
    refine lawful_of_ok (map_of_ok hrun) ⟨rfl, hsome, hmap⟩
      fun oid' name' hnot => ?_
    rw [hmap]
    refine AttrMap.set_of_ne fun heq => hnot ⟨heq.1, ?_⟩
    exact heq.2 ▸ List.mem_singleton_self _
  · refine lawful_of_error (map_of_error hrun) (fun _ _ _ => rfl) ?_
    rcases hrefused with hfail | hnone
    · exact .inl hfail
    · refine .inr fun hsome : (s.attrMap oid name).isSome = true => ?_
      rw [hnone] at hsome
      cases hsome

/-- A loop of removals stops at the first failure, which can be a name that
stands in the array a second time. -/
theorem rmattrs_cases (env : Env Mac) (oid : Oid) (hs : WellKept s) {names : List Name}
    (hnames : ∀ name ∈ names, Sendable name) :
    (∃ t, sysioObjRmattrs env oid names s = .ok () t ∧ names.Nodup ∧
      (∀ name ∈ names, (s.attrMap oid name).isSome) ∧
      t.attrMap = names.foldl (fun m name => m.set oid name none) s.attrMap) ∨
    (((∃ n, env.outcome n = .fail) ∨
        ¬ (names.Nodup ∧ ∀ name ∈ names, (s.attrMap oid name).isSome)) ∧
      ∃ rc t, sysioObjRmattrs env oid names s = .error (.code rc) t ∧
        ∀ oid' name, ¬ (oid' = oid ∧ name ∈ names) →
          t.attrMap oid' name = s.attrMap oid' name) := by
  induction names generalizing s with
  | nil =>
      exact .inl ⟨s, rfl, List.nodup_nil,
        fun _ h => absurd h List.not_mem_nil, rfl⟩
  | cons name names ih =>
      obtain ⟨hname, hrest⟩ := List.forall_mem_cons.mp hnames
      have hcons : sysioObjRmattrs env oid (name :: names) =
          sysioObjRmattr env oid name >>= fun _ =>
            sysioObjRmattrs env oid names := rfl
      rw [hcons]
      rcases rmattr_cases env oid hs hname with
        ⟨hsome, hrun⟩ | ⟨hrefused, rc, calls, hrun⟩
      · let u : Store := { s with
          attrs := s.attrs.erase ⟨oid, name⟩
          calls := s.calls + 2 }
        have hmap : u.attrMap = s.attrMap.set oid name none :=
          attrMap_of_erase rfl
        -- after the removal, the other names are there as before
        have hpresent : (∀ n ∈ names, (u.attrMap oid n).isSome) ↔
            name ∉ names ∧ ∀ n ∈ names, (s.attrMap oid n).isSome := by
          rw [hmap]
          exact AttrMap.forall_isSome_set_none
        rw [bind_of_ok hrun]
        rcases ih (s := u) (wellKept_erase hs rfl) hrest with
          ⟨t, hloop, hnodup, hall, ht⟩ | ⟨hrefused, rc, t, hloop, ht⟩
        · obtain ⟨hnot, hall⟩ := hpresent.mp hall
          refine .inl ⟨t, hloop, List.nodup_cons.mpr ⟨hnot, hnodup⟩,
            List.forall_mem_cons.mpr ⟨hsome, hall⟩, ?_⟩
          rw [ht, hmap, List.foldl_cons]
        · refine .inr ⟨hrefused.imp_right fun hbad hgood => ?_, rc, t, hloop, ?_⟩
          · obtain ⟨hnot, hnodup⟩ := List.nodup_cons.mp hgood.1
            exact hbad ⟨hnodup, hpresent.mpr
              ⟨hnot, (List.forall_mem_cons.mp hgood.2).2⟩⟩
          · intro oid' n hnot
            rw [List.mem_cons] at hnot
            rw [ht oid' n fun h => hnot ⟨h.1, .inr h.2⟩, hmap]
            exact AttrMap.set_of_ne fun h => hnot ⟨h.1, .inl h.2⟩
      · refine .inr ⟨hrefused.imp_right fun hnone hgood => ?_, rc, _,
          bind_of_error hrun, fun _ _ _ => rfl⟩
        have hsome := hgood.2 name List.mem_cons_self
        rw [hnone] at hsome
        cases hsome

theorem lawful_rmattrs (hs : WellKept s) {names : List Name}
    (hnames : ∀ name ∈ names, Sendable name) :
    Lawful env oid s (.rmattrs names) := by
  rcases rmattrs_cases env oid hs hnames with
    ⟨t, hrun, hnodup, hall, ht⟩ | ⟨hrefused, rc, t, hrun, hothers⟩
  · refine lawful_of_ok (map_of_ok hrun) ⟨rfl, hnodup, hall, ht⟩
      fun oid' name hnot => ?_
    have hnot' : ¬ (oid' = oid ∧ name ∈ names.map id) := by
      rwa [List.map_id]
    rw [ht]
    exact foldl_set_of_notMem hnot'
  · exact lawful_of_error (map_of_error hrun) hothers hrefused

/-! ### Reading -/

theorem lawful_getattr_iff (hs : WellKept s) {name : Name}
    (hname : Sendable name) :
    Lawful env oid s (.getattr name) ↔ ¬ Garbles env oid s (.getattr name) := by
  rcases getattr_cases env oid s hname with
    ⟨e, hcall, hlookup, hrun⟩ | ⟨hrefused, rc, hrun⟩
  · have hkept := hs _ e hlookup
    have hname_iff := hkept.name_eq_iff hlookup hkept.nameField_eq
    have hvalue : s.attrMap oid name = some e.value :=
      attrMap_eq_some.mpr ⟨e, hlookup, rfl⟩
    have hok : (AttrOp.getattr name).run env oid s =
        .ok (.attr ⟨e.name, e.value⟩) s.called := map_of_ok hrun
    constructor
    · rintro hlawful ⟨-, hspills⟩
      obtain ⟨-, value, -, heq⟩ := hlawful.meaning _ _ hok
      simp only [Result.attr.injEq, Attr.mk.injEq] at heq
      exact hname_iff.mp heq.1 hspills
    · intro hgood
      have hspills : ¬ Spills s oid name := fun h => hgood ⟨hcall, h⟩
      refine lawful_of_ok hok ⟨rfl, e.value, hvalue, ?_⟩ fun _ _ _ => rfl
      rw [hname_iff.mpr hspills]
  · refine iff_of_true (lawful_of_error (map_of_error hrun) (fun _ _ _ => rfl)
      (hrefused.imp (fun h => ⟨_, h⟩) fun hnone => ?_)) ?_
    · intro hsome
      have hsome : (s.attrMap oid name).isSome = true := hsome
      rw [hnone] at hsome
      cases hsome
    · rintro ⟨hcall, hfull, b, bs, hsome, -⟩
      rcases hrefused with hfail | hnone
      · exact hcall hfail
      · rw [hnone] at hsome
        cases hsome

/-- A loop of readings: either every name is there and every call is answered,
or it is an error. -/
theorem getattrs_cases (env : Env Mac) (oid : Oid) (hs : WellKept s)
    {names : List Name} (hnames : ∀ name ∈ names, Sendable name) :
    ((∀ i < names.length, env.outcome (s.calls + i) ≠ .fail) ∧
      ∃ (es : List AttrEntry) (t : Store),
        es.map AttrEntry.nameField = names ∧
        (∀ e ∈ es, s.attrs.lookup ⟨oid, e.nameField⟩ = some e) ∧
        t.attrs = s.attrs ∧ sysioObjGetattrs env oid names s =
          .ok (es.map fun e => ⟨e.name, e.value⟩) t) ∨
    (((∃ i < names.length, env.outcome (s.calls + i) = .fail) ∨
        ∃ name ∈ names, s.attrMap oid name = none) ∧
      ∃ rc t, t.attrs = s.attrs ∧
        sysioObjGetattrs env oid names s = .error (.code rc) t) := by
  induction names generalizing s with
  | nil =>
      exact .inl ⟨fun _ h => absurd h (Nat.not_lt_zero _), [], s, rfl,
        fun _ h => absurd h List.not_mem_nil, rfl, rfl⟩
  | cons name names ih =>
      obtain ⟨hname, hrest⟩ := List.forall_mem_cons.mp hnames
      have hcons : sysioObjGetattrs env oid (name :: names) =
          (do
            let attr ← sysioObjGetattr env oid name
            let attrs ← sysioObjGetattrs env oid names
            return attr :: attrs) := by
        rw [sysioObjGetattrs, List.mapM_cons]
        rfl
      rw [hcons]
      rcases getattr_cases env oid s hname with
        ⟨e, hcall, hlookup, hrun⟩ | ⟨hrefused, rc, hrun⟩
      · obtain rfl := (hs _ e hlookup).nameField_eq
        rw [bind_of_ok hrun]
        have hcalls : ∀ i, s.called.calls + i = s.calls + (i + 1) := by
          intro i
          show s.calls + 1 + i = _
          omega
        rcases ih (s := s.called) (wellKept_of_attrs hs rfl) hrest with
          ⟨hcalled, es, t, hmap, hes, ht, hloop⟩ | ⟨hrefused, rc, t, ht, hloop⟩
        · refine .inl ⟨?_, e :: es, t, ?_, ?_, ht, ?_⟩
          · intro i hi
            cases i with
            | zero => exact hcall
            | succ i =>
                rw [← hcalls]
                exact hcalled i (Nat.lt_of_succ_lt_succ hi)
          · rw [List.map_cons, hmap]
          · exact List.forall_mem_cons.mpr ⟨hlookup, hes⟩
          · rw [bind_of_ok hloop]
            rfl
        · refine .inr ⟨?_, rc, t, ht, bind_of_error hloop⟩
          rcases hrefused with ⟨i, hi, hfail⟩ | ⟨n, hn, hnone⟩
          · rw [hcalls] at hfail
            exact .inl ⟨i + 1, Nat.succ_lt_succ hi, hfail⟩
          · exact .inr ⟨n, List.mem_cons_of_mem _ hn, hnone⟩
      · refine .inr ⟨?_, rc, s.called, rfl, bind_of_error hrun⟩
        rcases hrefused with hfail | hnone
        · exact .inl ⟨0, Nat.succ_pos _, hfail⟩
        · exact .inr ⟨name, List.mem_cons_self, hnone⟩

theorem map_name_eq_iff (hs : WellKept s) {es : List AttrEntry}
    (hes : ∀ e ∈ es, s.attrs.lookup ⟨oid, e.nameField⟩ = some e) :
    es.map AttrEntry.name = es.map AttrEntry.nameField ↔
      ¬ ∃ name ∈ es.map AttrEntry.nameField, Spills s oid name := by
  have hone : ∀ e ∈ es, e.name = e.nameField ↔ ¬ Spills s oid e.nameField :=
    fun e he => (hs _ e (hes e he)).name_eq_iff (hes e he) rfl
  rw [List.map_inj_left]
  constructor
  · rintro hall ⟨name, hname, hspills⟩
    obtain ⟨e, he, rfl⟩ := List.mem_map.mp hname
    exact (hone e he).mp (hall e he) hspills
  · intro hnone e he
    exact (hone e he).mpr fun hspills =>
      hnone ⟨_, List.mem_map_of_mem he, hspills⟩

theorem lawful_getattrs_iff (hs : WellKept s) {names : List Name}
    (hnames : ∀ name ∈ names, Sendable name) :
    Lawful env oid s (.getattrs names) ↔
      ¬ Garbles env oid s (.getattrs names) := by
  rcases getattrs_cases env oid hs hnames with
    ⟨hcalls, es, t, rfl, hes, ht, hrun⟩ | ⟨hrefused, rc, t, ht, hrun⟩
  · have hnames_iff := map_name_eq_iff hs hes
    have hok : (AttrOp.getattrs (es.map AttrEntry.nameField)).run env oid s =
        .ok (.attrs (es.map fun e => ⟨e.name, e.value⟩)) t := map_of_ok hrun
    have hmap : (es.map fun e => (⟨e.name, e.value⟩ : Attr)).map Attr.name =
        es.map AttrEntry.name := by
      rw [List.map_map]
      rfl
    have hvalue : ∀ e ∈ es, s.attrMap oid e.nameField = some e.value :=
      fun e he => attrMap_eq_some.mpr ⟨e, hes e he, rfl⟩
    constructor
    · rintro hlawful ⟨-, -, hspills⟩
      obtain ⟨-, attrs, heq, hattrs, -⟩ := hlawful.meaning _ _ hok
      obtain rfl := Result.attrs.inj heq
      rw [hmap] at hattrs
      exact hnames_iff.mp hattrs hspills
    · intro hgood
      have hpresent : ∀ name ∈ es.map AttrEntry.nameField,
          (s.attrMap oid name).isSome := by
        intro name hname
        obtain ⟨e, he, rfl⟩ := List.mem_map.mp hname
        rw [hvalue e he]
        rfl
      have heq := hnames_iff.mpr fun hspills => hgood ⟨hcalls, hpresent, hspills⟩
      refine lawful_of_ok hok ⟨attrMap_of_attrs ht, _, rfl, hmap.trans heq, ?_⟩
        fun _ _ _ => by rw [attrMap_of_attrs ht]
      intro a ha
      obtain ⟨e, he, rfl⟩ := List.mem_map.mp ha
      have hname := List.map_inj_left.mp heq e he
      rw [hname]
      exact hvalue e he
  · have hbad : (∃ n, env.outcome n = .fail) ∨
        ¬ (AttrOp.getattrs names).Defined (s.attrMap oid) := by
      rcases hrefused with ⟨i, -, hfail⟩ | ⟨name, hname, hnone⟩
      · exact .inl ⟨_, hfail⟩
      · refine .inr fun hall => ?_
        have hsome := hall name hname
        rw [hnone] at hsome
        cases hsome
    refine iff_of_true (lawful_of_error (map_of_error hrun)
      (fun _ _ _ => by rw [attrMap_of_attrs ht]) hbad) ?_
    rintro ⟨hcalls, hall, -⟩
    rcases hrefused with ⟨i, hi, hfail⟩ | ⟨name, hname, hnone⟩
    · exact hcalls i hi hfail
    · have hsome := hall name hname
      rw [hnone] at hsome
      cases hsome

theorem lawful_listattrs_iff (hs : WellKept s) :
    Lawful env oid s .listattrs ↔ ¬ Garbles env oid s .listattrs := by
  have hempty : listed s oid = [] → ¬ ∃ name, (s.attrMap oid name).isSome := by
    rintro hnil ⟨name, hsome⟩
    rw [(listed_eq_nil hs).mp hnil name] at hsome
    cases hsome
  rcases listattrs_cases env oid s with ⟨hfail, hrun⟩ | ⟨hcall, hnil, hrun⟩ |
    ⟨hcall, hne, hcount, hrun⟩ | ⟨hcall, hne, hcount, hrun⟩
  · exact iff_of_true (lawful_of_error (map_of_error hrun) (fun _ _ _ => rfl)
      (.inl ⟨_, hfail⟩)) fun h => h.1 hfail
  · refine iff_of_true (lawful_of_error (map_of_error hrun) (fun _ _ _ => rfl)
      (.inr (hempty hnil))) ?_
    rintro ⟨-, ⟨-, hsome⟩ | ⟨-, name, -, hsome, -⟩⟩
    · exact hempty hnil hsome
    · exact hempty hnil ⟨name, hsome⟩
  · -- the first record has no room
    have hsome : ∃ name, (s.attrMap oid name).isSome := by
      by_contra hnone
      refine hne ((listed_eq_nil hs).mpr fun name => ?_)
      exact Option.not_isSome_iff_eq_none.mp fun h => hnone ⟨name, h⟩
    refine iff_of_false (fun hlawful => ?_) (not_not.mpr
      ⟨hcall, .inl ⟨hcount, hsome⟩⟩)
    have hsurvives := hlawful.survives
    have herror : AttrOp.listattrs.run env oid s =
        .error .overrun s.called.called := map_of_error hrun
    rw [outcome_of_error herror] at hsurvives
    cases hsurvives
  · have hok : AttrOp.listattrs.run env oid s =
        .ok (.names ((listed s oid).map (AttrEntry.row · env.rowBehind)))
          s.called.called := map_of_ok hrun
    constructor
    · rintro hlawful ⟨-, ⟨hfail, -⟩ | ⟨-, hruns⟩⟩
      · exact hcount hfail
      · obtain ⟨-, names, heq, -, hmem⟩ := hlawful.meaning _ _ hok
        obtain rfl := Result.names.inj heq
        obtain ⟨row, hrow, hlen⟩ := length_row_of_runsOn hs hruns
        have hle := length_le_of_isSome hs ((hmem row).mp hrow)
        omega
    · intro hgood
      have hrows := row_of_not_runsOn hs fun hruns =>
        hgood ⟨hcall, .inr ⟨hcount, hruns⟩⟩
      refine lawful_of_ok hok ⟨rfl, _, rfl, ?_, fun name => ?_⟩ fun _ _ _ => rfl
      · rw [hrows]
        exact nodup_listed hs oid
      · rw [hrows]
        exact mem_map_listed hs

/-- Over a database whose entries are well kept. -/
theorem lawful_iff (hs : WellKept s) (hop : op.Sendable) :
    Lawful env oid s op ↔ ¬ Garbles env oid s op := by
  cases op with
  | setattr attr => exact iff_of_true (lawful_setattr hop) id
  | setattrs attrs => exact iff_of_true (lawful_setattrs hop) id
  | getattr name => exact lawful_getattr_iff hs hop
  | getattrs names => exact lawful_getattrs_iff hs hop
  | listattrs => exact lawful_listattrs_iff hs
  | rmattr name => exact iff_of_true (lawful_rmattr hs hop) id
  | rmattrs names => exact iff_of_true (lawful_rmattrs hs hop) id

end Laws

/-- In every database that sessions of the server lead to, an operation keeps the
laws of a map exactly if it garbles nothing. -/
theorem attributes_lawful_iff {Mac : Type} {root : Path} {s : Store}
    (hs : DatabaseReached Mac root s) (env : Env Mac) (oid : Oid) {op : AttrOp}
    (hop : op.Sendable) :
    Lawful env oid s op ↔ ¬ Garbles env oid s op :=
  lawful_iff hs.wellKept hop

/-- The database after one object has been made and an attribute of it has been
set. -/
def attrStore (root : Path) (cap : Cap Unit) (attr : Attr) : Store :=
  let env : Env Unit := Env.quiet fun _ => none
  (handle env root (.setattr Obj.zero attr cap)).final
    ((handle env root (.createObj Obj.zero cap)).final Store.empty)

theorem attrStore_reached (root : Path) (cap : Cap Unit) {attr : Attr}
    (hattr : attr.Sendable) :
    DatabaseReached Unit root (attrStore root cap attr) :=
  .request _ _ (.request _ _ (.new rfl) trivial) hattr

/-- A name of one character is read back. -/
theorem attributes_lawful_short :
    let root : Path := ['/', 'r']
    let env : Env Unit := Env.quiet fun _ => none
    let cap : Cap Unit :=
      ⟨⟨1, containerWrite, ⟨Oid.zero, Octets.fill 20 0⟩⟩, ()⟩
    Lawful env Oid.zero (attrStore root cap ⟨[97], [1]⟩) (.getattr [97]) := by
  intro root env cap
  have hname : Sendable [97] := ⟨by decide, by decide⟩
  have hattr : Attr.Sendable ⟨[97], [1]⟩ := ⟨hname, by decide⟩
  have hop : (AttrOp.getattr [97]).Sendable := hname
  refine (attributes_lawful_iff (attrStore_reached root cap hattr) env Oid.zero
    hop).mpr ?_
  rintro ⟨-, hfull, -⟩
  cases hfull

/-- A name of 64 characters comes back with the first byte of the value behind
it. -/
theorem filled_name_misread :
    let root : Path := ['/', 'r']
    let env : Env Unit := Env.quiet fun _ => none
    let cap : Cap Unit :=
      ⟨⟨1, containerWrite, ⟨Oid.zero, Octets.fill 20 0⟩⟩, ()⟩
    let name : Name := List.replicate 64 97
    let s := attrStore root cap ⟨name, [1]⟩
    DatabaseReached Unit root s ∧ Sendable name ∧
      (sysioObjGetattr env Oid.zero name).outcome s =
        .ok ⟨name ++ [1], [1]⟩ ∧
      ¬ Lawful env Oid.zero s (.getattr name) := by
  intro root env cap name s
  have hname : Sendable name := ⟨by decide, by decide⟩
  have hattr : Attr.Sendable ⟨name, [1]⟩ := ⟨hname, by decide⟩
  have hread : (sysioObjGetattr env Oid.zero name).outcome s =
      .ok ⟨name ++ [1], [1]⟩ := by decide +kernel
  refine ⟨attrStore_reached root cap hattr, hname, hread, fun hlawful => ?_⟩
  obtain ⟨-, value, -, heq⟩ :=
    hlawful.meaning _ _ (map_of_ok (outcome_eq_ok.mp hread))
  simp only [Result.attr.injEq, Attr.mk.injEq] at heq
  exact absurd heq.1 (by decide)

end Lwfs.Storage
