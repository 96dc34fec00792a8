import Mathlib.Logic.Function.Basic
import Lwfs.Storage.ReadOnly
import Lwfs.Storage.Requests

/-!
The attributes of the objects as a finite map.

An attribute stands under the id of its object and its name. The name is
copied from string to array and back on its way into the database and out of
it, and the array has room for `LWFS_NAME_LEN` characters and for no zero behind
them. The operations are compared here with those of a map from names to
values, one for each object.
-/

namespace Lwfs.Storage

open SysLib Routine

/-! ### What attributes are -/

/-- The attributes of the objects: the value of each name. -/
abbrev AttrMap := Oid → Name → Option (List UInt8)

/-- The map with one attribute of one object changed. -/
def AttrMap.set (m : AttrMap) (oid : Oid) (name : Name)
    (value : Option (List UInt8)) : AttrMap :=
  Function.update m oid (Function.update (m oid) name value)

def Store.attrMap (s : Store) : AttrMap := fun oid name =>
  (s.attrs.lookup ⟨oid, name⟩).map AttrEntry.value

/-- The operations on the attributes of one object. -/
inductive AttrOp
  | setattr (attr : Attr)
  | setattrs (attrs : List Attr)
  | getattr (name : Name)
  | getattrs (names : List Name)
  | listattrs
  | rmattr (name : Name)
  | rmattrs (names : List Name)

namespace AttrOp

def run {Mac : Type} (env : Env Mac) (oid : Oid) : AttrOp → StoreRoutine Result
  | setattr attr =>
      (fun _ => .done) <$> sysioObjSetattr env oid attr.name attr.value
  | setattrs attrs => (fun _ => .done) <$> sysioObjSetattrs env oid attrs
  | getattr name => .attr <$> sysioObjGetattr env oid name
  | getattrs names => .attrs <$> sysioObjGetattrs env oid names
  | listattrs => .names <$> sysioObjListattrs env oid
  | rmattr name => (fun _ => .done) <$> sysioObjRmattr env oid name
  | rmattrs names => (fun _ => .done) <$> sysioObjRmattrs env oid names

/-- What an operation that succeeds returns, and the map it leaves. -/
def Meaning (oid : Oid) (m m' : AttrMap) : AttrOp → Result → Prop
  | setattr attr, r => r = .done ∧ m' = m.set oid attr.name (some attr.value)
  | setattrs attrs, r => r = .done ∧
      m' = attrs.foldl (fun m a => m.set oid a.name (some a.value)) m
  | getattr name, r => m' = m ∧
      ∃ value, m oid name = some value ∧ r = .attr ⟨name, value⟩
  | getattrs names, r => m' = m ∧
      ∃ attrs, r = .attrs attrs ∧ attrs.map Attr.name = names ∧
        ∀ a ∈ attrs, m oid a.name = some a.value
  | listattrs, r => m' = m ∧
      ∃ names, r = .names names ∧ names.Nodup ∧
        ∀ name, name ∈ names ↔ (m oid name).isSome
  | rmattr name, r => r = .done ∧ (m oid name).isSome ∧
      m' = m.set oid name none
  | rmattrs names, r => r = .done ∧ names.Nodup ∧
      (∀ name ∈ names, (m oid name).isSome) ∧
        m' = names.foldl (fun m name => m.set oid name none) m

/-- The attributes that an operation asks for are there, and it does not
remove one twice. To list no attributes is answered with
`LWFS_ERR_NOENT`. -/
def Defined (attrs : Name → Option (List UInt8)) : AttrOp → Prop
  | setattr _ => True
  | setattrs _ => True
  | getattr name => (attrs name).isSome
  | getattrs names => ∀ name ∈ names, (attrs name).isSome
  | listattrs => ∃ name, (attrs name).isSome
  | rmattr name => (attrs name).isSome
  | rmattrs names => names.Nodup ∧ ∀ name ∈ names, (attrs name).isSome

/-- The names of the attributes that an operation can change. -/
def written : AttrOp → List Name
  | setattr attr => [attr.name]
  | setattrs attrs => attrs.map Attr.name
  | getattr _ => []
  | getattrs _ => []
  | listattrs => []
  | rmattr name => [name]
  | rmattrs names => names

end AttrOp

/-- A name as the protocol has it: a string that is not too long. -/
def Sendable (name : Name) : Prop := name.length ≤ nameLen ∧ 0 ∉ name

/-- An attribute as the protocol has it. -/
def Attr.Sendable (attr : Attr) : Prop :=
  Storage.Sendable attr.name ∧ attr.value.length ≤ attrSize

def AttrOp.Sendable : AttrOp → Prop
  | .setattr attr => attr.Sendable
  | .setattrs attrs => ∀ attr ∈ attrs, attr.Sendable
  | .getattr name => Storage.Sendable name
  | .getattrs names => ∀ name ∈ names, Storage.Sendable name
  | .listattrs => True
  | .rmattr name => Storage.Sendable name
  | .rmattrs names => ∀ name ∈ names, Storage.Sendable name

/-- The attributes that a request sets are as the protocol has them. -/
def Request.Sendable {Mac : Type} : Request Mac → Prop
  | .setattr _ attr _ => attr.Sendable
  | .setattrs _ attrs _ => ∀ attr ∈ attrs, attr.Sendable
  | _ => True

/-! ### The map -/

section Map

variable {m : AttrMap} {oid oid' : Oid} {name name' : Name}
  {value : Option (List UInt8)}

theorem AttrMap.set_self : m.set oid name value oid name = value := by
  simp [AttrMap.set]

theorem AttrMap.set_of_ne (h : ¬ (oid' = oid ∧ name' = name)) :
    m.set oid name value oid' name' = m oid' name' := by
  rcases eq_or_ne oid' oid with rfl | hoid
  · have hname : name' ≠ name := fun hname => h ⟨rfl, hname⟩
    simp [AttrMap.set, Function.update_of_ne hname]
  · simp [AttrMap.set, Function.update_of_ne hoid]

/-- The other attributes are there with one taken out, if it is none of them. -/
theorem AttrMap.forall_isSome_set_none {names : List Name} :
    (∀ n ∈ names, (m.set oid name none oid n).isSome) ↔
      name ∉ names ∧ ∀ n ∈ names, (m oid n).isSome := by
  constructor
  · intro hall
    have hnot : name ∉ names := by
      intro hmem
      have hgone := hall name hmem
      rw [AttrMap.set_self] at hgone
      cases hgone
    refine ⟨hnot, fun n hn => ?_⟩
    have hne : ¬ (oid = oid ∧ n = name) := by
      rintro ⟨-, rfl⟩
      exact hnot hn
    have hkeep : m.set oid name none oid n = m oid n := AttrMap.set_of_ne hne
    rw [← hkeep]
    exact hall n hn
  · rintro ⟨hnot, hall⟩ n hn
    have hne : ¬ (oid = oid ∧ n = name) := by
      rintro ⟨-, rfl⟩
      exact hnot hn
    rw [AttrMap.set_of_ne hne]
    exact hall n hn

variable {s t : Store} {e : AttrEntry}

theorem attrMap_of_attrs (h : t.attrs = s.attrs) : t.attrMap = s.attrMap := by
  unfold Store.attrMap
  rw [h]

theorem attrMap_of_insert (h : t.attrs = s.attrs.insert ⟨oid, name⟩ e) :
    t.attrMap = s.attrMap.set oid name (some e.value) := by
  funext oid' name'
  by_cases hkey : oid' = oid ∧ name' = name
  · obtain ⟨rfl, rfl⟩ := hkey
    rw [AttrMap.set_self, Store.attrMap, h, AList.lookup_insert]
    rfl
  · have hne : (⟨oid', name'⟩ : Db1Key) ≠ ⟨oid, name⟩ := by
      simpa using hkey
    rw [AttrMap.set_of_ne hkey, Store.attrMap, h, AList.lookup_insert_ne hne]
    rfl

theorem attrMap_of_erase (h : t.attrs = s.attrs.erase ⟨oid, name⟩) :
    t.attrMap = s.attrMap.set oid name none := by
  funext oid' name'
  by_cases hkey : oid' = oid ∧ name' = name
  · obtain ⟨rfl, rfl⟩ := hkey
    rw [AttrMap.set_self, Store.attrMap, h, AList.lookup_erase]
    rfl
  · have hne : (⟨oid', name'⟩ : Db1Key) ≠ ⟨oid, name⟩ := by
      simpa using hkey
    rw [AttrMap.set_of_ne hkey, Store.attrMap, h, AList.lookup_erase_ne hne]
    rfl

theorem attrMap_eq_some {v : List UInt8} :
    s.attrMap oid name = some v ↔
      ∃ e, s.attrs.lookup ⟨oid, name⟩ = some e ∧ e.value = v := by
  simp [Store.attrMap]

end Map

/-! ### What the entries keep -/

/-- An entry stands under its own id and name, and the name is a string that
fits the array. -/
structure Kept (key : Db1Key) (e : AttrEntry) : Prop where
  key_eq : key = ⟨e.oid, e.nameField⟩
  sendable : Sendable e.nameField
  rest_of_nil : e.value = [] → e.rest = [0]

def WellKept (s : Store) : Prop :=
  ∀ key e, s.attrs.lookup key = some e → Kept key e

section Kept

variable {name : Name} {e : AttrEntry} {key : Db1Key}

theorem cString_append (h : 0 ∉ name) (mem : List UInt8) :
    cString (name ++ mem) = name ++ cString mem := by
  have hall : ∀ b ∈ name, decide (b ≠ 0) = true := by
    intro b hb
    rw [decide_eq_true_eq]
    rintro rfl
    exact h hb
  exact List.takeWhile_append_of_pos hall

theorem db1Keygen_of_sendable (h : Sendable name) (oid : Oid) :
    db1Keygen oid name = ⟨oid, name⟩ := by
  rw [db1Keygen, List.take_of_length_le h.1]

/-- A name that fills its array goes on with the value. -/
theorem Kept.name_eq (h : Kept key e) :
    e.name = e.nameField ++
      if e.nameField.length < nameLen then [] else cString (e.value ++ e.rest) := by
  rw [AttrEntry.name]
  split
  · simp
  · rw [List.append_assoc, cString_append h.sendable.2]

theorem Kept.nameField_eq {oid : Oid} (h : Kept ⟨oid, name⟩ e) :
    e.nameField = name := by
  have heq := h.key_eq
  simp only [Db1Key.mk.injEq] at heq
  exact heq.2.symm

theorem Kept.take_name (h : Kept key e) : e.name.take nameLen = e.nameField := by
  have hlen := h.sendable.1
  rw [h.name_eq]
  split
  · simp only [List.append_nil]
    exact List.take_of_length_le hlen
  · have hfull : e.nameField.length = nameLen := by omega
    exact List.take_left' hfull

/-- However far the name runs on, it leads back to the key. -/
theorem Kept.db1Keygen_eq (h : Kept key e) : db1Keygen e.oid e.name = key := by
  rw [db1Keygen, h.take_name, h.key_eq]

theorem Kept.row_eq (h : Kept key e) (behind : Name → List UInt8) :
    e.row behind = e.nameField ++
      if e.nameField.length < nameLen then [] else cString (behind e.nameField) := by
  simp only [AttrEntry.row, h.take_name]
  split
  · simp
  · rfl

theorem wellKept_of_attrs {s t : Store} (h : WellKept s)
    (heq : t.attrs = s.attrs) : WellKept t := by
  unfold WellKept
  rw [heq]
  exact h

end Kept

/-! ### One call of the database -/

section Calls

variable {Mac : Type} {env : Env Mac} {s t : Store} {oid : Oid} {name : Name}
  {attr : Attr} {e : AttrEntry}

/-- The state after a call of the database that changes nothing. -/
def Store.called (s : Store) : Store := { s with calls := s.calls + 1 }

theorem getattr_of_fail (h : env.outcome s.calls = .fail) :
    sysioObjGetattr env oid name s = .error (.code .errStorage) s.called := by
  have hget : db1Get env (db1Keygen oid name) s =
      .error (.code .errStorage) s.called := bind_of_error (dbCall_of_fail h)
  rw [sysioObjGetattr, ssDbGetAttrByName, bind_of_error hget]

theorem db1Get_of_ne (h : env.outcome s.calls ≠ .fail) (key : Db1Key) :
    db1Get env key s = match s.attrs.lookup key with
      | none => .error (.code .errNoent) s.called
      | some e => .ok e s.called := by
  rw [db1Get, bind_of_ok (dbCall_of_ne h), get_bind]
  show _ = match s.attrs.lookup key with
    | none => EStateM.Result.error (Fault.code .errNoent) s.called
    | some e => .ok e s.called
  cases hlookup : s.attrs.lookup key with
  | none => simp only; rfl
  | some e => simp only; rfl

/-- Either the database answers and has the attribute, or it is an error. -/
theorem getattr_cases (env : Env Mac) (oid : Oid) (s : Store)
    (hname : Sendable name) :
    (∃ e, env.outcome s.calls ≠ .fail ∧ s.attrs.lookup ⟨oid, name⟩ = some e ∧
      sysioObjGetattr env oid name s = .ok ⟨e.name, e.value⟩ s.called) ∨
    ((env.outcome s.calls = .fail ∨ s.attrMap oid name = none) ∧
      ∃ rc, sysioObjGetattr env oid name s = .error (.code rc) s.called) := by
  by_cases hcall : env.outcome s.calls = .fail
  · exact .inr ⟨.inl hcall, _, getattr_of_fail hcall⟩
  have hget := db1Get_of_ne hcall (db1Keygen oid name)
  rw [db1Keygen_of_sendable hname] at hget
  cases hlookup : s.attrs.lookup ⟨oid, name⟩ with
  | none =>
      rw [hlookup] at hget
      refine .inr ⟨.inr ?_, .errNoent, ?_⟩
      · rw [Store.attrMap, hlookup]
        rfl
      · rw [sysioObjGetattr, ssDbGetAttrByName, db1Keygen_of_sendable hname,
          bind_of_error hget]
  | some e =>
      rw [hlookup] at hget
      refine .inl ⟨e, hcall, rfl, ?_⟩
      rw [sysioObjGetattr, ssDbGetAttrByName, db1Keygen_of_sendable hname,
        bind_of_ok hget]
      rfl

/-- Either the database answers and the attribute is put, or it is an
error. -/
theorem setattr_cases (env : Env Mac) (oid : Oid) (s : Store)
    (hattr : attr.Sendable) :
    (∃ e, env.outcome s.calls ≠ .fail ∧ Kept ⟨oid, attr.name⟩ e ∧
      e.value = attr.value ∧
      sysioObjSetattr env oid attr.name attr.value s =
        .ok () { s.called with attrs := s.attrs.insert ⟨oid, attr.name⟩ e }) ∨
    (env.outcome s.calls = .fail ∧
      sysioObjSetattr env oid attr.name attr.value s =
        .error (.code .errStorage) s.called) := by
  obtain ⟨⟨hlen, hzero⟩, hvalue⟩ := hattr
  let e : AttrEntry := ⟨oid, attr.name, attr.value,
    if attr.value = [] then [0]
    else (List.range (attrSize - attr.value.length)).map env.malloc⟩
  have hkept : Kept ⟨oid, attr.name⟩ e :=
    ⟨rfl, ⟨hlen, hzero⟩, fun hnil => if_pos hnil⟩
  have hentry : attrEntry env oid attr.name attr.value s = .ok e s := by
    have hfits : ¬ (nameLen < attr.name.length ∨
        attrSize < attr.value.length) := by omega
    rw [attrEntry, if_neg hfits]
    rfl
  rw [sysioObjSetattr, bind_of_ok hentry, ssDbAttrPut, hkept.db1Keygen_eq, db1Put]
  by_cases hcall : env.outcome s.calls = .fail
  · exact .inr ⟨hcall, bind_of_error (dbCall_of_fail hcall)⟩
  · refine .inl ⟨e, hcall, hkept, rfl, ?_⟩
    rw [bind_of_ok (dbCall_of_ne hcall)]
    rfl

/-- Either the database answers twice and the attribute is taken out, or it is
an error. -/
theorem rmattr_cases (env : Env Mac) (oid : Oid) (hs : WellKept s)
    (hname : Sendable name) :
    ((s.attrMap oid name).isSome ∧
      sysioObjRmattr env oid name s = .ok () { s with
        attrs := s.attrs.erase ⟨oid, name⟩
        calls := s.calls + 2 }) ∨
    (((∃ n, env.outcome n = .fail) ∨ s.attrMap oid name = none) ∧
      ∃ rc calls, sysioObjRmattr env oid name s =
        .error (.code rc) { s with calls := calls }) := by
  by_cases hremoves : Removes env oid name s
  · obtain ⟨e, hlookup, -, hrun⟩ := rmattr_of_removes hremoves
    rw [db1Keygen_of_sendable hname] at hlookup
    rw [(hs _ e hlookup).db1Keygen_eq] at hrun
    refine .inl ⟨?_, hrun⟩
    rw [Store.attrMap, hlookup]
    rfl
  · refine .inr ⟨?_, rmattr_of_not_removes hremoves⟩
    by_contra hgood
    obtain ⟨hanswers, hsome⟩ := not_or.mp hgood
    obtain ⟨v, hv⟩ := Option.ne_none_iff_exists'.mp hsome
    obtain ⟨e, hlookup, -⟩ := attrMap_eq_some.mp hv
    refine hremoves ⟨fun h => hanswers ⟨_, h⟩, e, ?_, fun h => hanswers ⟨_, h⟩, ?_⟩
    · rwa [db1Keygen_of_sendable hname]
    · rw [(hs _ e hlookup).db1Keygen_eq]
      exact Table.mem_of_lookup hlookup

/-- The records that a listing of an object goes through. -/
abbrev listed (s : Store) (oid : Oid) : List AttrEntry :=
  Table.filter AttrEntry.oid s.attrs oid

theorem db2Get_of_nil (hcall : env.outcome s.calls ≠ .fail)
    (hnil : listed s oid = []) (maxlen : ℕ) :
    db2Get env oid maxlen s = .error (.code .errNoent) s.called := by
  rw [db2Get, bind_of_ok (dbCall_of_ne hcall), get_bind]
  simp only [show Table.filter AttrEntry.oid s.attrs oid = [] from hnil]
  rfl

theorem db2Get_of_ne_nil (hcall : env.outcome s.calls ≠ .fail)
    (hne : listed s oid ≠ []) (maxlen : ℕ) :
    db2Get env oid maxlen s = if maxlen = 0 then .error .overrun s.called
      else .ok (((listed s oid).take maxlen).map (AttrEntry.row · env.rowBehind))
        s.called := by
  obtain ⟨e, es, hlist⟩ := List.exists_cons_of_ne_nil hne
  rw [db2Get, bind_of_ok (dbCall_of_ne hcall), get_bind, hlist]
  simp only [show Table.filter AttrEntry.oid s.attrs oid = e :: es from hlist]
  split <;> rfl

/-- What a listing takes for the number of attributes. -/
theorem listattrs_eq (env : Env Mac) (oid : Oid) (s : Store) :
    sysioObjListattrs env oid s = db2Get env oid
      (if env.outcome s.calls = .fail then 0 else (listed s oid).length)
        s.called := by
  rw [sysioObjListattrs]
  split
  · next hcall =>
    have hsize : db2Size env oid s = .error (.code .errStorage) s.called :=
      bind_of_error (dbCall_of_fail hcall)
    refine bind_of_ok ?_
    simp only [mapOutcome, outcome, final, hsize]
  · next hcall =>
    have hsize : db2Size env oid s = .ok (listed s oid).length s.called := by
      rw [db2Size, bind_of_ok (dbCall_of_ne hcall), get_bind,
        Table.length_filter]
      rfl
    refine bind_of_ok ?_
    simp only [mapOutcome, outcome, final, hsize]

/-- The second call decides, unless it finds records for which the first has
made no room. -/
theorem listattrs_cases (env : Env Mac) (oid : Oid) (s : Store) :
    (env.outcome (s.calls + 1) = .fail ∧ sysioObjListattrs env oid s =
      .error (.code .errStorage) s.called.called) ∨
    (env.outcome (s.calls + 1) ≠ .fail ∧ listed s oid = [] ∧
      sysioObjListattrs env oid s =
        .error (.code .errNoent) s.called.called) ∨
    (env.outcome (s.calls + 1) ≠ .fail ∧ listed s oid ≠ [] ∧
      env.outcome s.calls = .fail ∧
      sysioObjListattrs env oid s = .error .overrun s.called.called) ∨
    (env.outcome (s.calls + 1) ≠ .fail ∧ listed s oid ≠ [] ∧
      env.outcome s.calls ≠ .fail ∧ sysioObjListattrs env oid s =
        .ok ((listed s oid).map (AttrEntry.row · env.rowBehind))
          s.called.called) := by
  rw [listattrs_eq]
  by_cases hcall : env.outcome (s.calls + 1) = .fail
  · exact .inl ⟨hcall, bind_of_error (dbCall_of_fail (s := s.called) hcall)⟩
  have hcall' : env.outcome s.called.calls ≠ .fail := hcall
  by_cases hnil : listed s oid = []
  · exact .inr (.inl ⟨hcall, hnil, db2Get_of_nil hcall' hnil _⟩)
  have hget := db2Get_of_ne_nil (s := s.called) hcall' hnil
  by_cases hcount : env.outcome s.calls = .fail
  · refine .inr (.inr (.inl ⟨hcall, hnil, hcount, ?_⟩))
    rw [if_pos hcount, hget, if_pos rfl]
  · refine .inr (.inr (.inr ⟨hcall, hnil, hcount, ?_⟩))
    have hlen : (listed s oid).length ≠ 0 := by
      simpa using hnil
    rw [if_neg hcount, hget, if_neg hlen]
    show EStateM.Result.ok (((listed s oid).take (listed s oid).length).map _) _ = _
    rw [List.take_length]

end Calls

/-! ### The database over whole sessions -/

/-- The database of attributes has not changed. -/
def SameAttrs (s t : Store) : Prop := t.attrs = s.attrs

instance : Std.Refl SameAttrs := ⟨fun _ => rfl⟩

instance : IsTrans Store SameAttrs :=
  ⟨fun _ _ _ hst htu => Eq.trans htu hst⟩

section SameAttrs

variable {Mac : Type} {env : Env Mac} {root : Path}

/-- No operation on objects changes the attributes. -/
theorem passes_sameAttrs (env : Env Mac) (root : Path) :
    Passes env root SameAttrs where
  memory _ _ _ _ hattrs := hattrs
  table _ _ _ hattrs := hattrs
  sysOpen _ _ := rfl
  sysClose _ _ := rfl
  sysLseek _ _ _ := rfl
  sysRead _ _ _ := rfl
  sysFstat _ _ := rfl
  sysAccess _ _ := rfl
  sysCreat _ _ := rfl
  sysRemove _ _ := rfl
  sysWrite _ _ _ := rfl
  sysFsync _ _ := rfl
  sysFtruncate _ _ _ := rfl

end SameAttrs

section Sessions

variable {Mac : Type} {env : Env Mac} {root : Path} {s t : Store}

theorem wellKept_insert (hs : WellKept s) {key : Db1Key} {e : AttrEntry}
    (he : Kept key e) (ht : t.attrs = s.attrs.insert key e) : WellKept t := by
  intro key' e' hlookup
  rw [ht] at hlookup
  rcases eq_or_ne key' key with rfl | hne
  · rw [AList.lookup_insert, Option.some.injEq] at hlookup
    rwa [← hlookup]
  · rw [AList.lookup_insert_ne hne] at hlookup
    exact hs key' e' hlookup

theorem wellKept_erase (hs : WellKept s) {key : Db1Key}
    (ht : t.attrs = s.attrs.erase key) : WellKept t := by
  intro key' e' hlookup
  rw [ht] at hlookup
  rcases eq_or_ne key' key with rfl | hne
  · rw [AList.lookup_erase] at hlookup
    cases hlookup
  · rw [AList.lookup_erase_ne hne] at hlookup
    exact hs key' e' hlookup

/-- The entries stay well kept, and only attributes of one object change. -/
def Confined (oid : Oid) (s t : Store) : Prop :=
  WellKept s → WellKept t ∧
    ∀ oid' ≠ oid, ∀ name, t.attrMap oid' name = s.attrMap oid' name

instance (oid : Oid) : Std.Refl (Confined oid) :=
  ⟨fun _ hs => ⟨hs, fun _ _ _ => rfl⟩⟩

instance (oid : Oid) : IsTrans Store (Confined oid) where
  trans s t u hst htu hs := by
    obtain ⟨ht, hsame⟩ := hst hs
    obtain ⟨hu, hsame'⟩ := htu ht
    exact ⟨hu, fun oid' hne name =>
      (hsame' oid' hne name).trans (hsame oid' hne name)⟩

theorem confined_of_sameAttrs {α : Type} {x : StoreRoutine α}
    (h : Within SameAttrs x) (oid : Oid) : Within (Confined oid) x :=
  fun s hs => ⟨wellKept_of_attrs hs (h s), fun oid' _ name =>
    congrFun (congrFun (attrMap_of_attrs (h s)) oid') name⟩

theorem setattr_confined {attr : Attr} (hattr : attr.Sendable) (oid : Oid) :
    Within (Confined oid) (sysioObjSetattr env oid attr.name attr.value) := by
  intro s hs
  rcases setattr_cases env oid s hattr with
    ⟨e, -, he, -, hrun⟩ | ⟨-, hrun⟩
  · rw [final_of_ok hrun]
    refine ⟨wellKept_insert hs he rfl, fun oid' hne name => ?_⟩
    rw [attrMap_of_insert rfl]
    exact AttrMap.set_of_ne fun heq => hne heq.1
  · rw [final_of_error hrun]
    exact ⟨wellKept_of_attrs hs rfl, fun _ _ _ => rfl⟩

theorem rmattr_confined (oid : Oid) (name : Name) :
    Within (Confined oid) (sysioObjRmattr env oid name) := by
  intro s hs
  by_cases hremoves : Removes env oid name s
  · obtain ⟨e, hlookup, -, hrun⟩ := rmattr_of_removes hremoves
    rw [(hs _ e hlookup).db1Keygen_eq] at hrun
    rw [final_of_ok hrun]
    refine ⟨wellKept_erase hs rfl, fun oid' hne name' => ?_⟩
    let t : Store := { s with
      attrs := s.attrs.erase ⟨oid, name.take nameLen⟩
      calls := s.calls + 2 }
    have hmap : t.attrMap = s.attrMap.set oid (name.take nameLen) none :=
      attrMap_of_erase rfl
    show t.attrMap oid' name' = _
    rw [hmap]
    exact AttrMap.set_of_ne fun heq => hne heq.1
  · obtain ⟨rc, calls, hrun⟩ := rmattr_of_not_removes hremoves
    rw [final_of_error hrun]
    exact ⟨wellKept_of_attrs hs rfl, fun _ _ _ => rfl⟩

theorem rmAllAttrs_confined (oid : Oid) :
    Within (Confined oid) (rmAllAttrs env oid) :=
  within_bind (within_mapOutcome (confined_of_sameAttrs
    ((passes_sameAttrs env []).sysioObjListattrs oid) oid) _) fun names =>
      within_forM (rmattr_confined oid) names

/-- The attribute that records the container. -/
theorem cidAttr_sendable (cid : Cid) :
    Attr.Sendable ⟨lwfsCidName, cidValue cid⟩ := by
  have hname : Sendable lwfsCidName := ⟨by decide, by decide⟩
  refine ⟨hname, ?_⟩
  rw [cidValue, Bytes.length_ofNat]
  decide

/-- A request changes no attributes but those of its object. -/
theorem operation_confined {req : Request Mac} (hreq : req.Sendable) :
    Within (Confined req.obj.oid) (operation env root req) := by
  have hpasses := passes_sameAttrs env root
  have hsame : ∀ {α : Type} {x : StoreRoutine α} (oid : Oid),
      Within SameAttrs x → Within (Confined oid) x :=
    fun oid h => confined_of_sameAttrs h oid
  cases req with
  | createObj obj cap =>
      exact within_map (within_bind (hsame _ (hpasses.sysioObjCreate obj.oid))
        fun _ => within_mapOutcome (setattr_confined
          (cidAttr_sendable cap.data.cid) obj.oid) _) _
  | removeObj obj cap =>
      exact within_map (within_bind (hsame _ (hpasses.removeObjByOid obj.oid))
        fun _ => rmAllAttrs_confined obj.oid) _
  | read obj off len cap => exact hsame _ (hpasses.readOp obj off len)
  | write obj off data cap =>
      exact within_map (hsame _ (hpasses.writeOp obj off data)) _
  | fsync obj cap =>
      exact within_map (hsame _ (hpasses.sysioObjFsync obj.oid)) _
  | listattrs obj cap =>
      exact within_map (within_mapOutcome
        (hsame _ (hpasses.sysioObjListattrs obj.oid)) _) _
  | getattrs obj names cap =>
      exact within_map (within_mapOutcome (hsame _
        (within_mapM (hpasses.sysioObjGetattr obj.oid) names)) _) _
  | getattr obj name cap =>
      exact within_map (within_mapOutcome
        (hsame _ (hpasses.sysioObjGetattr obj.oid name)) _) _
  | setattr obj attr cap =>
      exact within_map (within_mapOutcome (setattr_confined hreq obj.oid) _) _
  | setattrs obj attrs cap =>
      exact within_map (within_mapOutcome (within_forM_of_mem
        fun attr hattr => setattr_confined (hreq attr hattr) obj.oid) _) _
  | rmattrs obj names cap =>
      exact within_map (within_mapOutcome
        (within_forM (rmattr_confined obj.oid) names) _) _
  | rmattr obj name cap =>
      exact within_map (within_mapOutcome (rmattr_confined obj.oid name) _) _
  | stat obj cap =>
      exact within_map (within_mapOutcome
        (hsame _ (hpasses.sysioObjStat obj.oid)) _) _
  | truncate obj size cap =>
      exact within_map (hsame _ (hpasses.truncateOp obj size)) _

theorem handle_confined {req : Request Mac} (hreq : req.Sendable) :
    Within (Confined req.obj.oid) (handle env root req) := by
  rw [handle_eq]
  refine within_bind (fun s hs => ?_) fun _ => operation_confined hreq
  rw [final_checks]
  exact ⟨hs, fun _ _ _ => rfl⟩

/-- The databases that requests have led to since there was none. The database
outlives the server, so that another session can begin with it at any
time. -/
inductive DatabaseReached (Mac : Type) (root : Path) : Store → Prop
  | new {s : Store} : s.attrs = ∅ → DatabaseReached Mac root s
  | request {s : Store} (env : Env Mac) (req : Request Mac) :
      DatabaseReached Mac root s → req.Sendable →
        DatabaseReached Mac root ((handle env root req).final s)
  | session {s t : Store} : DatabaseReached Mac root s → t.attrs = s.attrs →
      DatabaseReached Mac root t

theorem DatabaseReached.wellKept (h : DatabaseReached Mac root s) :
    WellKept s := by
  induction h with
  | new hempty =>
      intro key e hlookup
      rw [hempty] at hlookup
      cases hlookup
  | request env req hs hreq ih => exact (handle_confined hreq _ ih).1
  | session hs heq ih => exact wellKept_of_attrs ih heq

end Sessions

end Lwfs.Storage
