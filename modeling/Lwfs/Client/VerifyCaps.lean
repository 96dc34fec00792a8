import Lwfs.Authr.Cap
import Lwfs.Lib.Run
import Lwfs.Rpc.Wait
import Lwfs.Support.Hashtable

/-!
`lwfs_verify_caps` on the side of the caller, with the cache of capabilities
that a process keeps.

An array is answered from the cache only if each of its capabilities is found
there under its MAC with the same data, and the cache holds nothing but the
capabilities of arrays that the server has accepted
(`lwfsVerifyCaps_sound`).
-/

namespace Lwfs.Client

open SysLib Rpc Support

variable {Mac : Type}

/-- The variables of one process that `authr_client.c` keeps. -/
structure AuthrClient (Mac : Type) where
  verifyCaps : Bool
  cacheCaps : Bool
  cacheHt : Hashtable Mac (Cap Mac)

/-- One call: its array, the request its caller hands in, and what happens
around it. -/
structure VerifyCall (Mac : Type) where
  caps : List (Cap Mac)
  req : Request Unit
  trip : Trip Unit
  /-- How many capabilities there is memory for. -/
  room : ℕ

/-- Verification is on, and the cache is. -/
def AuthrClient.Caching (client : AuthrClient Mac) : Prop :=
  client.verifyCaps = true ∧ client.cacheCaps = true

/-- What the cache is created with: `equalkeys` compares the bytes. -/
def cacheFns [DecidableEq Mac] (hashfromkey : Mac → UInt32)
    (loadlimit : ℕ → ℕ) : HashFns Mac where
  hashfn := hashfromkey
  eqfn := fun mac₁ mac₂ => mac₁ = mac₂
  loadlimit := loadlimit

section Calls

variable (fns : HashFns Mac)

/-- A process after `lwfs_cache_caps_init`. -/
def cacheCapsInit : AuthrClient Mac where
  verifyCaps := true
  cacheCaps := true
  cacheHt := Hashtable.create fns 1024

/-- The loop that looks in the cache: the value of `found`. -/
def lookInCache (cacheHt : Hashtable Mac (Cap Mac)) : List (Cap Mac) → Bool
  | [] => true
  | cap :: caps =>
      match Hashtable.search fns cacheHt cap.mac with
      | none => false
      | some found =>
          -- The capability may have been tampered with.
          if Authr.CapData.memory cap.data ≠ Authr.CapData.memory found.data
          then false
          else lookInCache cacheHt caps

/-- The loop that fills the cache, and the code to return. -/
def cacheThem : Hashtable Mac (Cap Mac) → ℕ → List (Cap Mac) →
    Hashtable Mac (Cap Mac) × Rc
  | cacheHt, _, [] => (cacheHt, lwfsOk)
  | cacheHt, 0, _ :: _ => (cacheHt, rcOf .errVerifycap)
  | cacheHt, room + 1, cap :: caps =>
      cacheThem (Hashtable.insert fns cacheHt cap.mac cap) room caps

/-- `lwfs_verify_caps`: the variables, the request and the code it leaves. -/
def lwfsVerifyCaps (client : AuthrClient Mac) (call : VerifyCall Mac) :
    Except Fault (AuthrClient Mac × Request Unit × Rc) :=
  if ¬ client.verifyCaps then .ok (client, call.req, lwfsOk)
  else if client.cacheCaps then
    if lookInCache fns client.cacheHt call.caps then
      let req := { call.req with
        status := .requestComplete, errorCode := lwfsOk }
      .ok (client, req, lwfsOk)
    else
      -- A call that could not be sent is waited for as well.
      match wait call.trip (sent call.trip ()) call.trip.callRpc with
      | .error fault => .error fault
      | .ok waited =>
          if waited.remoteRc ≠ lwfsOk then
            .ok (client, waited.request, waited.remoteRc)
          else if waited.rc ≠ lwfsOk then
            .ok (client, waited.request, waited.rc)
          else
            let (cacheHt, rc) :=
              cacheThem fns client.cacheHt call.room call.caps
            .ok ({ client with cacheHt }, waited.request, rc)
  else .ok (client, sent call.trip (), call.trip.callRpc)

/-- `lwfs_verify_caps_sync`. -/
def lwfsVerifyCapsSync (client : AuthrClient Mac) (call : VerifyCall Mac) :
    Except Fault (AuthrClient Mac × Rc) :=
  match lwfsVerifyCaps fns client call with
  | .error fault => .error fault
  | .ok (client, req, rc) =>
      if rc ≠ lwfsOk then .ok (client, rc)
      else
        match wait call.trip req rc with
        | .error fault => .error fault
        | .ok waited =>
            if waited.rc ≠ lwfsOk then .ok (client, waited.rc)
            else .ok (client, waited.remoteRc)

/-! ### The process -/

/-- Whether a call returns `LWFS_OK`. -/
def ReturnsOk (client : AuthrClient Mac) (call : VerifyCall Mac) : Prop :=
  ∃ client' req, lwfsVerifyCaps fns client call = .ok (client', req, lwfsOk)

/-- The process after a call. A call that does not return ends it. -/
def stepCall (client : AuthrClient Mac) (call : VerifyCall Mac) :
    AuthrClient Mac :=
  match lwfsVerifyCaps fns client call with
  | .error _ => client
  | .ok (client', _) => client'

/-- Whether the call sends its array to the server. -/
def asks (client : AuthrClient Mac) (call : VerifyCall Mac) : Bool :=
  client.verifyCaps &&
    !(client.cacheCaps && lookInCache fns client.cacheHt call.caps)

/-- Whether the server is asked and answers with `LWFS_OK`. -/
def serverAccepts (client : AuthrClient Mac) (call : VerifyCall Mac) : Bool :=
  asks fns client call && (call.trip.callRpc = lwfsOk &&
    call.trip.header.any fun header => header.rc = lwfsOk)

/-- The arrays that the server accepts in the course of a run. -/
def acceptedArrays (client : AuthrClient Mac) :
    List (VerifyCall Mac) → List (List (Cap Mac))
  | [] => []
  | call :: run =>
      let arrays := acceptedArrays (stepCall fns client call) run
      if serverAccepts fns client call then call.caps :: arrays else arrays

end Calls

/-! ### What a call does -/

section Steps

variable {fns : HashFns Mac} {client : AuthrClient Mac}
  {call : VerifyCall Mac}

/-- Everything in the table after the loop was there before, or is one of the
capabilities under its own MAC. -/
theorem mem_entries_of_cacheThem {cacheHt : Hashtable Mac (Cap Mac)}
    {room : ℕ} {caps : List (Cap Mac)} {e : Entry Mac (Cap Mac)}
    (h : e ∈ (cacheThem fns cacheHt room caps).1.entries) :
    e ∈ cacheHt.entries ∨ e.k = e.v.mac ∧ e.v ∈ caps := by
  induction caps generalizing cacheHt room with
  | nil =>
      rw [cacheThem] at h
      exact .inl h
  | cons cap caps ih =>
      cases room with
      | zero => exact .inl h
      | succ room =>
          rcases ih h with hold | ⟨hkey, hcaps⟩
          · rcases Hashtable.mem_entries_of_insert fns hold with rfl | hold
            · exact .inr ⟨rfl, List.mem_cons_self⟩
            · exact .inl hold
          · exact .inr ⟨hkey, List.mem_cons_of_mem _ hcaps⟩

/-- The loop finds an array if it finds each capability of it. -/
theorem lookInCache_iff {cacheHt : Hashtable Mac (Cap Mac)}
    {caps : List (Cap Mac)} :
    lookInCache fns cacheHt caps = true ↔
      ∀ cap ∈ caps, ∃ found,
        Hashtable.search fns cacheHt cap.mac = some found ∧
          cap.data = found.data := by
  induction caps with
  | nil => simp [lookInCache]
  | cons cap caps ih =>
      simp only [lookInCache]
      rw [List.forall_mem_cons, ← ih]
      cases hsearch : Hashtable.search fns cacheHt cap.mac with
      | none => simp
      | some found =>
          have hdata : Authr.CapData.memory cap.data =
              Authr.CapData.memory found.data ↔ cap.data = found.data :=
            ⟨Authr.memory_inj, congrArg _⟩
          by_cases hsame : cap.data = found.data
          · simp [hsame]
          · simp [hdata, hsame]

/-- An array is answered from the cache only if the cache holds each of its
capabilities, data and MAC. -/
theorem mem_cache_of_lookInCache [DecidableEq Mac]
    {hashfromkey : Mac → UInt32} {loadlimit : ℕ → ℕ}
    {cacheHt : Hashtable Mac (Cap Mac)}
    (hkeys : ∀ e ∈ cacheHt.entries, e.k = e.v.mac) {caps : List (Cap Mac)}
    (h : lookInCache (cacheFns hashfromkey loadlimit) cacheHt caps = true) :
    ∀ cap ∈ caps, ∃ e ∈ cacheHt.entries, e.v = cap := by
  intro cap hcap
  obtain ⟨found, hsearch, hdata⟩ := lookInCache_iff.mp h cap hcap
  obtain ⟨e, he, heq, hv⟩ := Hashtable.exists_mem_of_search _ hsearch
  have hmac : cap.mac = e.k := of_decide_eq_true heq
  rw [hkeys e he, hv] at hmac
  refine ⟨e, he, ?_⟩
  rw [hv]
  cases cap
  cases found
  simp_all

/-- How a call returns: the variables are as they were, and with the cache on
the code is `LWFS_OK` only if the array was found there; or the server has
accepted the array, and the call has put it into the cache. -/
theorem lwfsVerifyCaps_cases {client' : AuthrClient Mac} {req : Request Unit}
    {rc : Rc}
    (h : lwfsVerifyCaps fns client call = .ok (client', req, rc)) :
    client' = client ∧
        (client.verifyCaps = true → client.cacheCaps = true → rc = lwfsOk →
          lookInCache fns client.cacheHt call.caps = true) ∨
      serverAccepts fns client call = true ∧
        client' = { client with
          cacheHt :=
            (cacheThem fns client.cacheHt call.room call.caps).1 } := by
  unfold lwfsVerifyCaps at h
  split at h
  · rename_i hverify
    cases h
    exact .inl ⟨rfl, fun hv => absurd hv hverify⟩
  · rename_i hverify
    split at h
    · rename_i hcache
      split at h
      · rename_i hlook
        cases h
        exact .inl ⟨rfl, fun _ _ _ => hlook⟩
      · rename_i hlook
        split at h
        · cases h
        · rename_i waited hwait
          split at h
          · rename_i hremote
            cases h
            exact .inl ⟨rfl, fun _ _ hok => absurd hok hremote⟩
          · rename_i hremote
            split at h
            · rename_i hrc
              cases h
              exact .inl ⟨rfl, fun _ _ hok => absurd hok hrc⟩
            · rename_i hrc
              -- Both codes are `LWFS_OK`, so the header carried it.
              obtain ⟨hcall, header, hheader, hcode⟩ :=
                wait_sent hwait (not_not.mp hrc)
              rw [not_not.mp hremote] at hcode
              cases h
              refine .inr ⟨?_, rfl⟩
              simp [serverAccepts, asks, not_not.mp hverify, hcache, hlook,
                hcall, hheader, ← hcode]
    · rename_i hcache
      cases h
      exact .inl ⟨rfl, fun _ hc => absurd hc hcache⟩

theorem stepCall_cases (fns : HashFns Mac) (client : AuthrClient Mac)
    (call : VerifyCall Mac) :
    stepCall fns client call = client ∨
      serverAccepts fns client call = true ∧
        stepCall fns client call =
          { client with
            cacheHt :=
              (cacheThem fns client.cacheHt call.room call.caps).1 } := by
  unfold stepCall
  split
  · exact .inl rfl
  · rename_i client' rest hresult
    rcases lwfsVerifyCaps_cases hresult with ⟨hsame, -⟩ | hfilled
    · exact .inl hsame
    · exact .inr hfilled

@[simp] theorem stepCall_verifyCaps (fns : HashFns Mac)
    (client : AuthrClient Mac) (call : VerifyCall Mac) :
    (stepCall fns client call).verifyCaps = client.verifyCaps := by
  rcases stepCall_cases fns client call with h | ⟨-, h⟩ <;> rw [h]

@[simp] theorem stepCall_cacheCaps (fns : HashFns Mac)
    (client : AuthrClient Mac) (call : VerifyCall Mac) :
    (stepCall fns client call).cacheCaps = client.cacheCaps := by
  rcases stepCall_cases fns client call with h | ⟨-, h⟩ <;> rw [h]

/-- A call leaves in the cache what was there, and the capabilities of its
own array if the server has accepted it. -/
theorem mem_entries_of_stepCall {e : Entry Mac (Cap Mac)}
    (h : e ∈ (stepCall fns client call).cacheHt.entries) :
    e ∈ client.cacheHt.entries ∨
      serverAccepts fns client call = true ∧ e.k = e.v.mac ∧
        e.v ∈ call.caps := by
  rcases stepCall_cases fns client call with hsame | ⟨haccepts, hfilled⟩
  · rw [hsame] at h
    exact .inl h
  · rw [hfilled] at h
    rcases mem_entries_of_cacheThem h with hold | hnew
    · exact .inl hold
    · exact .inr ⟨haccepts, hnew⟩

/-- An array that is found in the cache needs no server. -/
theorem lwfsVerifyCaps_of_found (hcaching : client.Caching)
    (h : lookInCache fns client.cacheHt call.caps = true) :
    lwfsVerifyCaps fns client call = .ok (client, { call.req with
      status := .requestComplete, errorCode := lwfsOk }, lwfsOk) := by
  simp [lwfsVerifyCaps, hcaching.1, hcaching.2, h]

theorem cacheThem_rc {cacheHt : Hashtable Mac (Cap Mac)} {room : ℕ}
    {caps : List (Cap Mac)} (h : caps.length ≤ room) :
    (cacheThem fns cacheHt room caps).2 = lwfsOk := by
  induction caps generalizing cacheHt room with
  | nil => rw [cacheThem]
  | cons cap caps ih =>
      cases room with
      | zero => cases h
      | succ room => exact ih (Nat.le_of_succ_le_succ h)

/-- An array that is not found goes to the server, and if the server accepts
it and nothing disturbs the call, it is in the cache afterwards. -/
theorem lwfsVerifyCaps_of_prompt (hcaching : client.Caching)
    (call : VerifyCall Mac) {header : ResultHeader}
    (hheader : header.rc = lwfsOk)
    (htrip : call.trip = Trip.prompt header)
    (hroom : call.caps.length ≤ call.room)
    (h : lookInCache fns client.cacheHt call.caps = false) :
    ∃ req, complete req lwfsOk = ⟨req, lwfsOk, lwfsOk⟩ ∧
      lwfsVerifyCaps fns client call =
        .ok ({ client with
          cacheHt :=
            (cacheThem fns client.cacheHt call.room call.caps).1 },
          req, lwfsOk) := by
  obtain ⟨req, hcomplete, hwait⟩ := wait_prompt header lwfsOk
  rw [hheader] at hcomplete hwait
  refine ⟨req, hcomplete, ?_⟩
  have hcall : (Trip.prompt header).callRpc = lwfsOk := rfl
  simp [lwfsVerifyCaps, hcaching.1, hcaching.2, h, htrip, hcall, hwait,
    cacheThem_rc hroom]

/-- A capability that the server has just accepted is found from then on. -/
theorem lookInCache_stepCall (hcaching : client.Caching)
    (hkeys : ∀ mac, fns.eqfn mac mac = true) {header : ResultHeader}
    (hheader : header.rc = lwfsOk) (cap : Cap Mac) (req : Request Unit) :
    lookInCache fns (stepCall fns client
      ⟨[cap], req, Trip.prompt header, 1⟩).cacheHt [cap] = true := by
  cases hlook : lookInCache fns client.cacheHt [cap] with
  | true =>
      rw [stepCall, lwfsVerifyCaps_of_found hcaching hlook]
      exact hlook
  | false =>
      obtain ⟨_, -, hcall⟩ := lwfsVerifyCaps_of_prompt hcaching
        ⟨[cap], req, Trip.prompt header, 1⟩ hheader rfl (Nat.le_refl 1) hlook
      rw [stepCall, hcall, lookInCache_iff]
      intro c hc
      rw [List.mem_singleton.mp hc]
      exact ⟨cap, Hashtable.search_insert fns _ _ (hkeys _), rfl⟩

/-- The entries of the cache stand where a search looks for them. -/
theorem placed_cacheThem {cacheHt : Hashtable Mac (Cap Mac)} {room : ℕ}
    {caps : List (Cap Mac)} (h : Hashtable.Placed fns cacheHt.table) :
    Hashtable.Placed fns (cacheThem fns cacheHt room caps).1.table := by
  induction caps generalizing cacheHt room with
  | nil =>
      rw [cacheThem]
      exact h
  | cons cap caps ih =>
      cases room with
      | zero => exact h
      | succ room => exact ih (h.insert fns cap.mac cap)

theorem placed_stepCall (h : Hashtable.Placed fns client.cacheHt.table) :
    Hashtable.Placed fns (stepCall fns client call).cacheHt.table := by
  rcases stepCall_cases fns client call with hsame | ⟨-, hfilled⟩
  · rw [hsame]
    exact h
  · rw [hfilled]
    exact placed_cacheThem h

theorem found_or_accepted_of_returnsOk (hcaching : client.Caching)
    (h : ReturnsOk fns client call) :
    lookInCache fns client.cacheHt call.caps = true ∨
      serverAccepts fns client call = true := by
  obtain ⟨client', req, hok⟩ := h
  rcases lwfsVerifyCaps_cases hok with ⟨-, hfound⟩ | ⟨haccepts, -⟩
  · exact .inl (hfound hcaching.1 hcaching.2 rfl)
  · exact .inr haccepts

/-! ### The synchronous call -/

theorem lwfsVerifyCapsSync_of_found (hcaching : client.Caching)
    (h : lookInCache fns client.cacheHt call.caps = true) :
    lwfsVerifyCapsSync fns client call = .ok (client, lwfsOk) := by
  rw [lwfsVerifyCapsSync, lwfsVerifyCaps_of_found hcaching h]
  rfl

/-- An array that the server accepts is accepted, with the cache or without,
if nothing disturbs the call. -/
theorem lwfsVerifyCapsSync_of_prompt (hverify : client.verifyCaps = true)
    (call : VerifyCall Mac) {header : ResultHeader}
    (hheader : header.rc = lwfsOk) (htrip : call.trip = Trip.prompt header)
    (hroom : call.caps.length ≤ call.room) :
    ∃ client', lwfsVerifyCapsSync fns client call =
      .ok (client', lwfsOk) := by
  cases hcache : client.cacheCaps with
  | true =>
      cases hlook : lookInCache fns client.cacheHt call.caps with
      | true =>
          exact ⟨_, lwfsVerifyCapsSync_of_found ⟨hverify, hcache⟩ hlook⟩
      | false =>
          obtain ⟨req, hcomplete, hcall⟩ := lwfsVerifyCaps_of_prompt
            ⟨hverify, hcache⟩ call hheader htrip hroom hlook
          have hwait : wait call.trip req lwfsOk =
              .ok (complete req lwfsOk) :=
            wait_of_complete (congrArg Waited.rc hcomplete) lwfsOk
          rw [hcomplete] at hwait
          rw [lwfsVerifyCapsSync, hcall]
          simp only [ne_eq, not_true_eq_false, if_false, hwait]
          exact ⟨_, rfl⟩
  | false =>
      obtain ⟨req, -, hwait⟩ := wait_prompt header lwfsOk
      refine ⟨client, ?_⟩
      have hcall : (Trip.prompt header).callRpc = lwfsOk := rfl
      simp [lwfsVerifyCapsSync, lwfsVerifyCaps, hverify, hcache, htrip, hcall,
        hwait, hheader]

/-- A process that verifies accepts an array that it finds in its cache, or
one that the server accepts. -/
theorem found_or_accepted_of_sync (hverify : client.verifyCaps = true)
    {client' : AuthrClient Mac}
    (h : lwfsVerifyCapsSync fns client call = .ok (client', lwfsOk)) :
    client.cacheCaps = true ∧
        lookInCache fns client.cacheHt call.caps = true ∨
      serverAccepts fns client call = true := by
  unfold lwfsVerifyCapsSync at h
  split at h
  · cases h
  · rename_i client₁ req rc hcall
    split at h
    · rename_i hrc
      exact absurd (congrArg Prod.snd (Except.ok.inj h)) hrc
    · rename_i hrc
      rw [not_not.mp hrc] at hcall h
      cases hcache : client.cacheCaps with
      | true =>
          rcases found_or_accepted_of_returnsOk ⟨hverify, hcache⟩
            ⟨_, _, hcall⟩ with hfound | haccepts
          · exact .inl ⟨rfl, hfound⟩
          · exact .inr haccepts
      | false =>
          right
          simp only [lwfsVerifyCaps, hverify, hcache, not_true_eq_false,
            if_false, Bool.false_eq_true, Except.ok.injEq,
            Prod.mk.injEq] at hcall
          obtain ⟨-, rfl, hsent⟩ := hcall
          split at h
          · cases h
          · rename_i waited hwait
            split at h
            · rename_i hne
              exact absurd (congrArg Prod.snd (Except.ok.inj h)) hne
            · rename_i hok
              obtain ⟨-, header, hheader, hcode⟩ :=
                wait_sent hwait (not_not.mp hok)
              have hremote : waited.remoteRc = lwfsOk :=
                congrArg Prod.snd (Except.ok.inj h)
              rw [hremote] at hcode
              simp [serverAccepts, asks, hverify, hcache, hsent, hheader,
                ← hcode]

end Steps

/-! ### Runs of calls -/

section Runs

variable {fns : HashFns Mac}

/-- Every entry of the cache is a capability of one of the arrays, under its
own MAC. -/
def CacheHolds (arrays : List (List (Cap Mac)))
    (cacheHt : Hashtable Mac (Cap Mac)) : Prop :=
  ∀ e ∈ cacheHt.entries, e.k = e.v.mac ∧ ∃ caps ∈ arrays, e.v ∈ caps

theorem CacheHolds.step {arrays : List (List (Cap Mac))}
    {client : AuthrClient Mac} (h : CacheHolds arrays client.cacheHt)
    (call : VerifyCall Mac) :
    CacheHolds (arrays ++ acceptedArrays fns client [call])
      (stepCall fns client call).cacheHt := by
  intro e he
  rcases mem_entries_of_stepCall he with hold | ⟨haccepts, hkey, hmem⟩
  · obtain ⟨hkey, caps, hcaps, hmem⟩ := h e hold
    exact ⟨hkey, caps, List.mem_append_left _ hcaps, hmem⟩
  · refine ⟨hkey, call.caps, List.mem_append_right _ ?_, hmem⟩
    simp [acceptedArrays, haccepts]

theorem acceptedArrays_cons (client : AuthrClient Mac)
    (call : VerifyCall Mac) (run : List (VerifyCall Mac)) :
    acceptedArrays fns client (call :: run) =
      acceptedArrays fns client [call] ++
        acceptedArrays fns (stepCall fns client call) run := by
  simp only [acceptedArrays]
  split <;> simp

theorem acceptedArrays_append (client : AuthrClient Mac)
    (run run' : List (VerifyCall Mac)) :
    acceptedArrays fns client (run ++ run') =
      acceptedArrays fns client run ++
        acceptedArrays fns (Run.exec (stepCall fns) client run) run' := by
  induction run generalizing client with
  | nil => rfl
  | cons call run ih =>
      rw [List.cons_append, acceptedArrays_cons, ih, ← List.append_assoc,
        ← acceptedArrays_cons, Run.exec_cons]

theorem CacheHolds.exec (fns : HashFns Mac) {arrays : List (List (Cap Mac))}
    {client : AuthrClient Mac} (h : CacheHolds arrays client.cacheHt)
    (run : List (VerifyCall Mac)) :
    CacheHolds (arrays ++ acceptedArrays fns client run)
      (Run.exec (stepCall fns) client run).cacheHt := by
  induction run generalizing arrays client with
  | nil => simpa [acceptedArrays] using h
  | cons call run ih =>
      rw [acceptedArrays_cons, ← List.append_assoc, Run.exec_cons]
      exact ih (h.step call)

theorem cacheHolds_cacheCapsInit (fns : HashFns Mac) :
    CacheHolds [] (cacheCapsInit fns).cacheHt := by
  intro e he
  simp [cacheCapsInit] at he

theorem caching_exec (fns : HashFns Mac) (run : List (VerifyCall Mac)) :
    (Run.exec (stepCall fns) (cacheCapsInit fns) run).Caching := by
  have hstep : ∀ (client : AuthrClient Mac) (call : VerifyCall Mac),
      client.Caching → (stepCall fns client call).Caching := by
    intro client call h
    simpa [AuthrClient.Caching] using h
  exact Run.exec_invariant_of_step hstep ⟨rfl, rfl⟩ run

end Runs

/-- Whatever was called before: a call returns `LWFS_OK` only if each of its
capabilities is, data and MAC, in an array that the server has accepted in
this call or an earlier one. -/
theorem lwfsVerifyCaps_sound [DecidableEq Mac] (hashfromkey : Mac → UInt32)
    (loadlimit : ℕ → ℕ) (run : List (VerifyCall Mac)) (call : VerifyCall Mac)
    (h : ReturnsOk (cacheFns hashfromkey loadlimit)
      (Run.exec (stepCall (cacheFns hashfromkey loadlimit))
        (cacheCapsInit (cacheFns hashfromkey loadlimit)) run) call) :
    ∀ cap ∈ call.caps, ∃ caps ∈
      acceptedArrays (cacheFns hashfromkey loadlimit)
        (cacheCapsInit (cacheFns hashfromkey loadlimit)) (run ++ [call]),
      cap ∈ caps := by
  intro cap hcap
  rw [acceptedArrays_append]
  have hcaching := caching_exec (cacheFns hashfromkey loadlimit) run
  rcases found_or_accepted_of_returnsOk hcaching h with hfound | haccepts
  · have hholds := CacheHolds.exec (cacheFns hashfromkey loadlimit)
      (cacheHolds_cacheCapsInit (cacheFns hashfromkey loadlimit)) run
    obtain ⟨e, he, rfl⟩ := mem_cache_of_lookInCache
      (fun e he => (hholds e he).1) hfound cap hcap
    obtain ⟨-, caps, hcaps, hmem⟩ := hholds e he
    exact ⟨caps, List.mem_append_left _ hcaps, hmem⟩
  · refine ⟨call.caps, List.mem_append_right _ ?_, hcap⟩
    simp [acceptedArrays, haccepts]

/-- The cache hashes every MAC to zero here, and holds one capability. -/
def plainFns : HashFns (List UInt8) := cacheFns (fun _ => 0) fun n => n

def plainCap : Cap (List UInt8) := ⟨⟨1, containerRead,
  ⟨Octets.fill uuidSize 1, Octets.fill 20 0⟩⟩, []⟩

def plainHeader : ResultHeader := ⟨1, false, Addr.zero, lwfsOk⟩

/-- A call for which the server has one answer and no second one. -/
def plainCall (trip : Trip Unit) : VerifyCall (List UInt8) where
  caps := [plainCap]
  req := ⟨.requestError, lwfsOk, ()⟩
  trip := trip
  room := 1

/-- The second call gets no answer, and the array of the first one counts. -/
theorem lwfsVerifyCaps_sound_second :
    ∃ caps ∈ acceptedArrays plainFns (cacheCapsInit plainFns)
        ([plainCall (Trip.prompt plainHeader)] ++
          [plainCall { Trip.prompt plainHeader with polls := [] }]),
      plainCap ∈ caps := by
  have hinit : (cacheCapsInit plainFns).Caching := ⟨rfl, rfl⟩
  have hkeys : ∀ mac, plainFns.eqfn mac mac = true :=
    fun mac => decide_eq_true rfl
  have hfound := lookInCache_stepCall hinit hkeys
    (show plainHeader.rc = lwfsOk from rfl) plainCap
    ⟨.requestError, lwfsOk, ()⟩
  have hcaching := caching_exec plainFns [plainCall (Trip.prompt plainHeader)]
  rw [Run.exec_cons, Run.exec_nil] at hcaching
  have hreturns : ReturnsOk plainFns (stepCall plainFns
      (cacheCapsInit plainFns) (plainCall (Trip.prompt plainHeader)))
      (plainCall { Trip.prompt plainHeader with polls := [] }) :=
    ⟨_, _, lwfsVerifyCaps_of_found hcaching hfound⟩
  refine lwfsVerifyCaps_sound (fun _ => 0) (fun n => n)
    [plainCall (Trip.prompt plainHeader)]
    (plainCall { Trip.prompt plainHeader with polls := [] }) ?_ plainCap
    List.mem_cons_self
  rw [Run.exec_cons, Run.exec_nil]
  exact hreturns

end Lwfs.Client
