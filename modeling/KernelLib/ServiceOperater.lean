import KernelLib.HandleLedger

/-!
# The service operater

`ServiceOperater` holds a handle of the service manager and opens a handle of
a service for each call. It is a script of calls to the system, which may
answer as it likes. Over the life of an object all handles and buffers are
given back once, with two exceptions: `start` keeps the service handle from
`StartService` on, and `changeStartType` closes a null handle when there is no
such service. What `stop`, `control` and `start` return is not what their
names promise.
-/

namespace KernelLib.ServiceOperater

open HandleLedger

/-- The calls of the service manager, and what goes with them. The configuration is asked for with
a buffer or without. -/
inductive Api where
  | OpenSCManager
  | CloseServiceHandle
  | OpenService
  | CreateService
  | DeleteService
  | ControlService
  | StartService
  | QueryServiceStatus
  | QueryServiceStatusEx
  | QueryServiceConfig (buffer : Bool)
  | ChangeServiceConfig
  | ChangeServiceConfig2
  | LocalAlloc
  | LocalFree
  | GetTickCount
  deriving DecidableEq, Repr

/-- An answer of the system. -/
structure Answer where
  /-- The call succeeded. -/
  ok : Bool
  /-- `GetLastError()`. -/
  error : ℕ
  /-- `dwServiceType`. -/
  serviceType : ℕ
  /-- `dwStartType`. -/
  startType : ℕ
  /-- `dwCurrentState`. -/
  currentState : ℕ
  /-- `dwWaitHint`. -/
  waitHint : ℕ
  /-- `GetTickCount()`. -/
  tick : BitVec 32
  deriving DecidableEq, Repr

/-- `ERROR_INSUFFICIENT_BUFFER`. -/
def insufficientBuffer : ℕ := 122

/-- `ERROR_SERVICE_ALREADY_RUNNING`. -/
def alreadyRunning : ℕ := 1056

/-- `ERROR_SERVICE_NOT_ACTIVE`. -/
def notActive : ℕ := 1062

/-- `ERROR_SERVICE_EXISTS`. -/
def serviceExists : ℕ := 1073

/-- `SERVICE_KERNEL_DRIVER`. -/
def kernelDriver : ℕ := 1

/-- `SERVICE_RUNNING`. -/
def running : ℕ := 4

/-- `ServiceStartType`. -/
inductive ServiceStartType where
  /-- `SST_UNKNOWN`. -/
  | unknown
  /-- `SST_AUTO`. -/
  | auto
  /-- `SST_DEMAND`. -/
  | demand
  /-- `SST_DISABLE`. -/
  | disable
  deriving DecidableEq, Repr

/-- `setsStartType`. -/
def setsStartType : ℕ → ServiceStartType
  | 2 => .auto
  | 3 => .demand
  | 4 => .disable
  | _ => .unknown

/-- A script of these calls. -/
abbrev Calls := Script Api Answer

/-- Open something when the system grants it. -/
def openIf (ok : Bool) : Calls (Option ℕ) :=
  if ok then some <$> acquire else pure none

/-- `open` and `assertOpen`: the handle of the manager, if there is one in the end. -/
def assertOpen : Option ℕ → Calls (Option ℕ)
  | some h => pure (some h)
  | none => do
    let r ← ask .OpenSCManager
    openIf r.ok

/-- `close`. -/
def close : Option ℕ → Calls Unit
  | some h => release .CloseServiceHandle (some h)
  | none => pure ()

/-- `OpenService`. -/
def openService (hscm : Option ℕ) : Calls (Option ℕ) := do
  let r ← askOn .OpenService hscm
  openIf r.ok

/-- What most methods begin with: the manager, a name that is not empty, and the service. -/
def withService (empty : Bool) (body : ℕ → Calls Bool) (hscm : Option ℕ) : Calls (Option ℕ × Bool) := do
  let hscm ← assertOpen hscm
  if hscm.isNone || empty then return (hscm, false)
  match ← openService hscm with
  | none => return (hscm, false)
  | some hSvc =>
    let bRet ← body hSvc
    return (hscm, bRet)

/-- `remove`. -/
def removeService (hSvc : ℕ) : Calls Bool := do
  let r ← askOn .DeleteService (some hSvc)
  release .CloseServiceHandle (some hSvc)
  return r.ok

/-- `create`, with or without a description. -/
def create (description : Bool) (hscm : Option ℕ) : Calls (Option ℕ × Bool) := do
  let hscm ← assertOpen hscm
  if hscm.isNone then return (hscm, false)
  let r ← askOn .CreateService hscm
  match ← openIf r.ok with
  | none => return (hscm, r.error = serviceExists)
  | some hSvc =>
    if description then
      let _ ← askOn .ChangeServiceConfig2 (some hSvc)
    release .CloseServiceHandle (some hSvc)
    return (hscm, true)

/-- `stop` and `control`, which differ in the code. -/
def controlService (hSvc : ℕ) : Calls Bool := do
  let bRet := false
  let r ← askOn .ControlService (some hSvc)
  let bRet := if !r.ok && r.error != notActive then false else bRet
  release .CloseServiceHandle (some hSvc)
  return bRet

/-- The part of `queryConfigInfo` that has a buffer or failed to get one. -/
def readConfig (hSvc : ℕ) (pConf : Option ℕ) : Calls (Option ServiceStartType) := do
  -- without a buffer the call fails
  let r ← askOn (.QueryServiceConfig pConf.isSome) (some hSvc)
  let o := if r.ok && pConf.isSome && r.serviceType != kernelDriver then
    some (setsStartType r.startType) else none
  if pConf.isSome then release .LocalFree pConf
  return o

/-- `queryConfigInfo` of a handle: the start type, if it returns `true`. -/
def queryConfigInfo (hSvc : ℕ) : Calls (Option ServiceStartType) := do
  let r ← askOn (.QueryServiceConfig false) (some hSvc)
  if r.ok then readConfig hSvc none
  else if r.error = insufficientBuffer then
    let m ← ask .LocalAlloc
    let pConf ← openIf m.ok
    readConfig hSvc pConf
  else return none

/-- `queryConfigInfo` of a name. -/
def queryService (hSvc : ℕ) : Calls Bool := do
  let o ← queryConfigInfo hSvc
  release .CloseServiceHandle (some hSvc)
  return o.isSome

/-- `changeStartType` of a handle. -/
def changeStartTypeOf : Option ℕ → Calls Bool
  | none => pure false
  | some hSvc => do
    let r ← askOn .ChangeServiceConfig (some hSvc)
    return r.ok

/-- `changeStartType` of a name. -/
def changeStartType (empty : Bool) (hscm : Option ℕ) : Calls (Option ℕ × Bool) := do
  let hscm ← assertOpen hscm
  if hscm.isNone || empty then return (hscm, false)
  let hSvc ← openService hscm
  let brt ← changeStartTypeOf hSvc
  release .CloseServiceHandle hSvc
  return (hscm, brt)

/-- A service that is disabled is to be started on demand. -/
def enable (conf : ServiceStartType) (hSvc : ℕ) : Calls Bool :=
  if conf = .disable then changeStartTypeOf (some hSvc) else pure true

/-- Both `start` up to `StartService`. -/
def startService (hSvc : ℕ) (started : Answer → Calls Bool) : Calls Bool := do
  match ← queryConfigInfo hSvc with
  | none =>
    release .CloseServiceHandle (some hSvc)
    return false
  | some conf =>
    let ok ← enable conf hSvc
    if !ok then
      release .CloseServiceHandle (some hSvc)
      return false
    let r ← askOn .StartService (some hSvc)
    started r

/-- A round of the loop of `start`. -/
def waitStartup (hSvc : ℕ) : Calls (Option Bool) := do
  let r ← askOn .QueryServiceStatus (some hSvc)
  if !r.ok then return some false
  if r.currentState = running then return some true
  if r.waitHint = 0 then return some false
  return none

/-- `start` of a name. -/
def start (hSvc : ℕ) : Calls Bool :=
  startService hSvc fun r =>
    if !r.ok then pure (r.error != alreadyRunning) else forever (waitStartup hSvc)

/-- `start` with arguments. -/
def startArgs (hSvc : ℕ) : Calls Bool := startService hSvc fun r => pure r.ok

/-- The methods, with whether the name is empty. -/
inductive Method where
  /-- `isOpen`. -/
  | isOpen
  /-- `assertOpen`. -/
  | assertOpen
  /-- `remove`. -/
  | remove (empty : Bool)
  /-- `create`. -/
  | create (description : Bool)
  /-- `stop`. -/
  | stop (empty : Bool)
  /-- `control`. -/
  | control (empty : Bool)
  /-- `start`. -/
  | start (empty : Bool)
  /-- `start` with arguments. -/
  | startArgs (empty : Bool)
  /-- `queryStartType`, `queryBinPath` and `queryDisplayName`, which do nothing. -/
  | query
  /-- `queryConfigInfo`. -/
  | queryConfigInfo (empty : Bool)
  /-- `changeStartType`. -/
  | changeStartType (empty : Bool)
  /-- `reOpen`. -/
  | reOpen
  deriving DecidableEq, Repr

/-- Call a method: the member `_hscm` after it, and what it returns. -/
def Method.call : Method → Option ℕ → Calls (Option ℕ × Bool)
  | .isOpen, hscm => pure (hscm, hscm.isSome)
  | .assertOpen, hscm => do
    let hscm ← ServiceOperater.assertOpen hscm
    return (hscm, hscm.isSome)
  | .remove empty, hscm => withService empty removeService hscm
  | .create description, hscm => ServiceOperater.create description hscm
  | .stop empty, hscm => withService empty controlService hscm
  | .control empty, hscm => withService empty controlService hscm
  | .start empty, hscm => withService empty ServiceOperater.start hscm
  | .startArgs empty, hscm => withService empty ServiceOperater.startArgs hscm
  | .query, hscm => pure (hscm, false)
  | .queryConfigInfo empty, hscm => withService empty queryService hscm
  | .changeStartType empty, hscm => ServiceOperater.changeStartType empty hscm
  | .reOpen, hscm => do
    close hscm
    let hscm ← ServiceOperater.assertOpen none
    return (hscm, hscm.isSome)

/-- Call methods one after the other. -/
def calls : List Method → Option ℕ → Calls (Option ℕ × List Bool)
  | [], hscm => pure (hscm, [])
  | m :: ms, hscm => do
    let (hscm, r) ← m.call hscm
    let (hscm, rs) ← calls ms hscm
    return (hscm, r :: rs)

/-- An object from its constructor to its destructor. -/
def life (ms : List Method) : Calls (List Bool) := do
  let hscm ← assertOpen none
  let (hscm, rs) ← calls ms hscm
  close hscm
  return rs

section Books

variable {L U : List ℕ} {S : List (Api × Option ℕ)} {k : ℕ} {hscm : Option ℕ} {c : Api}

/-- The calls of `StartService`. -/
def isStart (c : Api) : Bool := c = .StartService

/-- The books of the class, with the handles of the services that were started. -/
abbrev Kept (L : List ℕ) (S : List (Api × Option ℕ)) (U : List ℕ) (l : Ledger Api Answer) : Prop :=
  Books (fun _ => false) L S 0 l ∧ Used isStart U l

/-- A call without a handle leaves the books. -/
theorem ask_kept : Triple (Kept L S U) (ask c) fun _ => Kept L S U :=
  (triple_ask_books fun _ => rfl).and triple_ask_used

/-- What was granted is open. -/
theorem openIf_kept (ok : Bool) :
    Triple (Kept L S U) (openIf ok) fun h => Kept (h.toList ++ L) S U := by
  unfold openIf
  split_ifs
  · exact (triple_acquire.and triple_acquire_used).bind fun k => triple_pure fun _ h => h
  · exact triple_pure fun _ h => h

/-- So does a call with an open handle, unless it starts a service. -/
theorem askOn_kept (hk : k ∈ L) (hc : c ≠ .StartService) :
    Triple (Kept L S U) (askOn c (some k)) fun _ => Kept L S U := by
  refine (triple_askOn_books hk fun _ => rfl).and (triple_askOn_used.post fun _ l hl => ?_)
  simpa [isStart, hc] using hl

/-- Starting a service is noted. -/
theorem startService_kept (hk : k ∈ L) :
    Triple (Kept L S U) (askOn .StartService (some k)) fun _ => Kept L S (U ++ [k]) :=
  (triple_askOn_books hk fun _ => rfl).and triple_askOn_used

/-- Closing an open handle. -/
theorem release_kept (hk : k ∈ L) :
    Triple (Kept L S U) (release c (some k) : Calls PUnit) fun _ => Kept (L.erase k) S U :=
  (triple_release hk).and triple_release_used

/-- Closing the handle that was opened last. -/
theorem release_last_kept :
    Triple (Kept (k :: L) S U) (release c (some k) : Calls PUnit) fun _ => Kept L S U :=
  triple_release_last.and triple_release_used

/-- Closing no handle. -/
theorem release_none_kept :
    Triple (Kept L S U) (release c none : Calls PUnit) fun _ => Kept L (S ++ [(c, none)]) U :=
  triple_release_none.and triple_release_used

/-- A service is opened over an open manager. -/
theorem openService_kept (hk : k ∈ L) :
    Triple (Kept L S U) (openService (some k)) fun h => Kept (h.toList ++ L) S U :=
  (askOn_kept hk (by decide)).bind fun r => openIf_kept r.ok

/-- `queryConfigInfo` gives its buffer back. -/
theorem queryConfigInfo_kept (hk : k ∈ L) :
    Triple (Kept L S U) (queryConfigInfo k) fun _ => Kept L S U := by
  have hread : ∀ pConf : Option ℕ,
      Triple (Kept (pConf.toList ++ L) S U) (readConfig k pConf) fun _ => Kept L S U := by
    intro pConf
    refine (askOn_kept (List.mem_append_right _ hk) (by simp)).bind fun r => ?_
    cases pConf with
    | none => exact triple_pure fun _ h => h
    | some m => exact release_last_kept.bind fun _ => triple_pure fun _ h => h
  refine (askOn_kept hk (by decide)).bind fun r => ?_
  split_ifs
  · exact hread none
  · exact ask_kept.bind fun m => (openIf_kept m.ok).bind hread
  · exact triple_pure fun _ h => h

/-- A service that is opened is closed, or is left open and was started. -/
def Settled (k : ℕ) (L : List ℕ) (S : List (Api × Option ℕ)) (U : List ℕ) (l : Ledger Api Answer) :
    Prop :=
  Kept L S U l ∨ Kept (k :: L) S (U ++ [k]) l

/-- `remove` closes the service. -/
theorem removeService_settled :
    Triple (Kept (k :: L) S U) (removeService k) fun _ => Settled k L S U :=
  (askOn_kept List.mem_cons_self (by decide)).bind fun _ => release_last_kept.bind fun _ =>
    triple_pure fun _ => .inl

/-- So do `stop` and `control`. -/
theorem controlService_settled :
    Triple (Kept (k :: L) S U) (controlService k) fun _ => Settled k L S U :=
  (askOn_kept List.mem_cons_self (by decide)).bind fun _ => release_last_kept.bind fun _ =>
    triple_pure fun _ => .inl

/-- So does `queryConfigInfo`. -/
theorem queryService_settled :
    Triple (Kept (k :: L) S U) (queryService k) fun _ => Settled k L S U :=
  (queryConfigInfo_kept List.mem_cons_self).bind fun _ => release_last_kept.bind fun _ =>
    triple_pure fun _ => .inl

/-- Changing the start type leaves the books. -/
theorem changeStartTypeOf_kept {h : Option ℕ} (hk : ∀ k ∈ h, k ∈ L) :
    Triple (Kept L S U) (changeStartTypeOf h) fun _ => Kept L S U := by
  cases h with
  | none => exact triple_pure fun _ h => h
  | some k => exact (askOn_kept (hk k rfl) (by decide)).bind fun _ => triple_pure fun _ h => h

/-- Up to `StartService` the handle is closed on every way out, and from there on on none. -/
theorem startService_settled {started : Answer → Calls Bool}
    (hstarted : ∀ r,
      Triple (Kept (k :: L) S (U ++ [k])) (started r) fun _ => Kept (k :: L) S (U ++ [k])) :
    Triple (Kept (k :: L) S U) (startService k started) fun _ => Settled k L S U := by
  have hclose : Triple (Kept (k :: L) S U) (do
      release .CloseServiceHandle (some k)
      return false : Calls Bool) fun _ => Settled k L S U :=
    release_last_kept.bind fun _ => triple_pure fun _ => .inl
  refine (queryConfigInfo_kept List.mem_cons_self).bind fun o => ?_
  cases o with
  | none => exact hclose
  | some conf =>
    have henable : Triple (Kept (k :: L) S U) (enable conf k) fun _ => Kept (k :: L) S U := by
      unfold enable
      split_ifs
      · exact changeStartTypeOf_kept (by simp)
      · exact triple_pure fun _ h => h
    refine henable.bind fun ok => ?_
    cases ok with
    | false => exact hclose
    | true =>
      exact (startService_kept List.mem_cons_self).bind fun r => (hstarted r).post fun _ _ => .inr

/-- `start` leaves the service open once it was started. -/
theorem start_settled : Triple (Kept (k :: L) S U) (start k) fun _ => Settled k L S U := by
  refine startService_settled fun r => ?_
  split_ifs
  · exact triple_pure fun _ h => h
  · refine triple_forever ((askOn_kept List.mem_cons_self (by decide)).bind fun r => ?_)
    split_ifs <;> exact triple_pure fun _ h => h

/-- So does `start` with arguments. -/
theorem startArgs_settled : Triple (Kept (k :: L) S U) (startArgs k) fun _ => Settled k L S U :=
  startService_settled fun _ => triple_pure fun _ h => h

end Books

section Life

variable {hscm : Option ℕ} {l : Ledger Api Answer}

/-- What is open is the manager of the object and the services that were started, and nothing but a
null handle was used or closed that was not open. -/
structure Owned (hscm : Option ℕ) (l : Ledger Api Answer) : Prop where
  handles : l.live.Perm (hscm.toList ++ l.usedBy isStart)
  strays : ∀ e ∈ l.strays, e = (.CloseServiceHandle, none)

/-- What a script does to books, it does to those of the object. -/
theorem triple_of_kept {α : Type} {p : Calls α} {Q : α → Ledger Api Answer → Prop}
    (hp : ∀ L S U, L.Perm (hscm.toList ++ U) → (∀ e ∈ S, e = (.CloseServiceHandle, none)) →
      Triple (Kept L S U) p Q) : Triple (Owned hscm) p Q :=
  fun l as a l' as' h he =>
    hp l.live l.strays _ h.handles h.strays l as a l' as' ⟨⟨rfl, rfl, by simp⟩, rfl⟩ he

/-- The books of an object after a call. -/
theorem Owned.of_kept {L U : List ℕ} {S : List (Api × Option ℕ)} (h : Kept L S U l)
    (hperm : L.Perm (hscm.toList ++ U)) (hS : ∀ e ∈ S, e = (.CloseServiceHandle, none)) :
    Owned hscm l := by
  obtain ⟨hbooks, rfl⟩ := h
  exact ⟨hbooks.live ▸ hperm, hbooks.strays ▸ hS⟩

/-- The manager is open. -/
theorem mem_of_manager {L U : List ℕ} {m : ℕ} (h : L.Perm ((some m).toList ++ U)) : m ∈ L :=
  h.mem_iff.mpr List.mem_cons_self

/-- The object has the manager that it opens. -/
theorem assertOpen_owned : Triple (Owned hscm) (assertOpen hscm) Owned := by
  cases hscm with
  | some k => exact triple_pure fun _ h => h
  | none =>
    refine triple_of_kept fun L S U hperm hS => ?_
    refine ask_kept.bind fun r => (openIf_kept r.ok).post fun h l hl => ?_
    exact .of_kept hl (List.Perm.append_left _ hperm) hS

/-- The destructor leaves what `start` left. -/
theorem close_owned : Triple (Owned hscm) (close hscm) fun _ => Owned none := by
  cases hscm with
  | none => exact triple_pure fun _ h => h
  | some k =>
    refine triple_of_kept fun L S U hperm hS => ?_
    refine (release_kept (mem_of_manager hperm)).post fun _ l hl => .of_kept hl ?_ hS
    simpa using hperm.erase k

/-- A method with a service keeps the books of the object. -/
theorem withService_owned {body : ℕ → Calls Bool} {empty : Bool}
    (hbody : ∀ k L S U, Triple (Kept (k :: L) S U) (body k) fun _ => Settled k L S U) :
    Triple (Owned hscm) (withService empty body hscm) fun r => Owned r.1 := by
  refine assertOpen_owned.bind fun hscm => ?_
  cases hscm with
  | none => exact triple_pure fun _ h => h
  | some m =>
    cases empty with
    | true => exact triple_pure fun _ h => h
    | false =>
      refine triple_of_kept fun L S U hperm hS => ?_
      refine (openService_kept (mem_of_manager hperm)).bind fun h => ?_
      cases h with
      | none => exact triple_pure fun _ hl => .of_kept hl hperm hS
      | some k =>
        refine (hbody k L S U).bind fun b => triple_pure fun l hl => ?_
        rcases hl with hl | hl
        · exact .of_kept hl hperm hS
        · refine .of_kept hl ?_ hS
          rw [← List.append_assoc]
          exact (hperm.cons k).trans (List.perm_append_singleton k _).symm

/-- So does `create`, which closes the service it creates. -/
theorem create_owned (description : Bool) :
    Triple (Owned hscm) (create description hscm) fun r => Owned r.1 := by
  refine assertOpen_owned.bind fun hscm => ?_
  cases hscm with
  | none => exact triple_pure fun _ h => h
  | some m =>
    refine triple_of_kept fun L S U hperm hS => ?_
    refine (askOn_kept (mem_of_manager hperm) (by decide)).bind fun r =>
      (openIf_kept r.ok).bind fun h => ?_
    cases h with
    | none => exact triple_pure fun _ hl => .of_kept hl hperm hS
    | some k =>
      have hclose : Triple (Kept (k :: L) S U) (do
          release .CloseServiceHandle (some k)
          return (some m, true) : Calls (Option ℕ × Bool)) fun r => Owned r.1 :=
        release_last_kept.bind fun _ => triple_pure fun _ hl => .of_kept hl hperm hS
      cases description with
      | true => exact (askOn_kept List.mem_cons_self (by decide)).bind fun _ => hclose
      | false => exact hclose

/-- So does `changeStartType`, but for the null handle. -/
theorem changeStartType_owned (empty : Bool) :
    Triple (Owned hscm) (changeStartType empty hscm) fun r => Owned r.1 := by
  refine assertOpen_owned.bind fun hscm => ?_
  cases hscm with
  | none => exact triple_pure fun _ h => h
  | some m =>
    cases empty with
    | true => exact triple_pure fun _ h => h
    | false =>
      refine triple_of_kept fun L S U hperm hS =>
        (openService_kept (mem_of_manager hperm)).bind fun h => ?_
      cases h with
      | none =>
        -- the null handle is closed
        refine (changeStartTypeOf_kept (by simp)).bind fun _ => release_none_kept.bind fun _ =>
          triple_pure fun _ hl => .of_kept hl hperm ?_
        simpa [or_imp, forall_and] using hS
      | some k =>
        exact (changeStartTypeOf_kept (by simp)).bind fun _ => release_last_kept.bind fun _ =>
          triple_pure fun _ hl => .of_kept hl hperm hS

/-- Every method keeps the books of the object. -/
theorem call_owned (m : Method) : Triple (Owned hscm) (m.call hscm) fun r => Owned r.1 := by
  cases m with
  | isOpen => exact triple_pure fun _ h => h
  | assertOpen => exact assertOpen_owned.bind fun _ => triple_pure fun _ h => h
  | remove empty => exact withService_owned fun _ _ _ _ => removeService_settled
  | create description => exact create_owned description
  | stop empty => exact withService_owned fun _ _ _ _ => controlService_settled
  | control empty => exact withService_owned fun _ _ _ _ => controlService_settled
  | start empty => exact withService_owned fun _ _ _ _ => start_settled
  | startArgs empty => exact withService_owned fun _ _ _ _ => startArgs_settled
  | query => exact triple_pure fun _ h => h
  | queryConfigInfo empty => exact withService_owned fun _ _ _ _ => queryService_settled
  | changeStartType empty => exact changeStartType_owned empty
  | reOpen => exact close_owned.bind fun _ => assertOpen_owned.bind fun _ => triple_pure fun _ h => h

/-- So do any number of them. -/
theorem calls_owned (ms : List Method) :
    Triple (Owned hscm) (calls ms hscm) fun r => Owned r.1 := by
  induction ms generalizing hscm with
  | nil => exact triple_pure fun _ h => h
  | cons m ms ih =>
    exact (call_owned m).bind fun _ => ih.bind fun _ => triple_pure fun _ h => h

/-- Whatever methods are called and whatever the system answers: once the object is destroyed, the
handles that are still open are those `StartService` was called with, and nothing was used or closed
that was not open but a null handle. -/
theorem life_leaves_started (ms : List Method) {as as' : List Answer} {rs : List Bool}
    {l : Ledger Api Answer} (h : life ms Ledger.empty as = some ((rs, l), as')) :
    l.live.Perm (l.usedBy isStart) ∧ ∀ e ∈ l.strays, e = (.CloseServiceHandle, none) := by
  have hlife : Triple (Owned none) (life ms) fun _ => Owned none :=
    assertOpen_owned.bind fun _ => (calls_owned ms).bind fun _ => close_owned.bind fun _ =>
      triple_pure fun _ h => h
  have hend := hlife Ledger.empty as rs l as' ⟨.nil, nofun⟩ h
  exact ⟨hend.handles, hend.strays⟩

/-- The system grants everything, and the service runs at once. -/
def granted : Answer := ⟨true, 0, 16, 3, running, 0, 0⟩

/-- The first query of the configuration, which only asks for the length. -/
def tooShort : Answer := { granted with ok := false, error := insufficientBuffer }

/-- A service is stopped, started, and looked for under a name that does not exist. -/
def startedOnce : List Answer :=
  [granted, granted, granted, granted, tooShort, granted, granted, granted, granted,
    { granted with ok := false }]

/-- The service that was started stays open, and a null handle is closed. -/
theorem life_leaves_started_once :
    ∃ rs l as', life [.stop false, .start false, .changeStartType false] Ledger.empty startedOnce =
      some ((rs, l), as') ∧ rs = [false, true, false] ∧ l.opened = 4 ∧ l.live = [2] ∧
        l.strays = [(.CloseServiceHandle, none)] := by
  have hend : (life [.stop false, .start false, .changeStartType false] Ledger.empty startedOnce).map
      (fun r => (r.1.1, r.1.2.opened, r.1.2.usedBy isStart, r.1.2.strays.length)) =
        some ([false, true, false], 4, [2], 1) := by decide +kernel
  obtain ⟨⟨⟨rs, l⟩, as'⟩, hlife, he⟩ := Option.map_eq_some_iff.mp hend
  obtain ⟨hrs, hopened, hstarted, hlength⟩ : rs = _ ∧ l.opened = 4 ∧ l.usedBy isStart = [2] ∧
      l.strays.length = 1 := by simpa using he
  obtain ⟨hperm, hstrays⟩ := life_leaves_started _ hlife
  rw [hstarted] at hperm
  exact ⟨rs, l, as', hlife, hrs, hopened, List.perm_singleton.mp hperm,
    List.eq_replicate_of_mem hstrays |>.trans (by rw [hlength]; rfl)⟩

end Life

section Results

variable {φ : Api → Answer → Prop} {n k : ℕ} {hscm h : Option ℕ} {c : Api}

/-- What the member says when a method returns `true` without a call. -/
def Method.Holds : Method → Option ℕ → Prop
  | .isOpen, hscm => hscm.isSome
  | .assertOpen, hscm => hscm.isSome
  | _, _ => False

/-- The last call of a method when it returns `true`. -/
def Method.Succeeds : Method → Api → Answer → Prop
  | .isOpen, _, _ => False
  | .assertOpen, c, r => c = .OpenSCManager ∧ r.ok
  | .remove _, c, r => c = .DeleteService ∧ r.ok
  | .create _, c, r =>
    c = .CreateService ∧ (r.ok ∨ r.error = serviceExists) ∨ c = .ChangeServiceConfig2
  | .stop _, _, _ => False
  | .control _, _, _ => False
  | .start _, c, r =>
    c = .StartService ∧ !r.ok ∧ r.error ≠ alreadyRunning ∨
      c = .QueryServiceStatus ∧ r.ok ∧ r.currentState = running
  | .startArgs _, c, r => c = .StartService ∧ r.ok
  | .query, _, _ => False
  | .queryConfigInfo _, c, r =>
    c = .QueryServiceConfig true ∧ r.ok ∧ r.serviceType ≠ kernelDriver
  | .changeStartType _, c, r => c = .ChangeServiceConfig ∧ r.ok
  | .reOpen, c, r => c = .OpenSCManager ∧ r.ok

/-- What a script returns is whether the last call was of a kind. -/
abbrev Tells (φ : Api → Answer → Prop) (n : ℕ) (p : Calls Bool) : Prop :=
  Triple (fun l => Quiet φ n l.log) p fun b l => b = true ↔ Ends φ n l.log

/-- A method that did not make the call returns `false`. -/
theorem tells_false {l : Ledger Api Answer} (h : Quiet φ n l.log) :
    false = true ↔ Ends φ n l.log := by
  simpa using h.not_ends

/-- Opening something adds nothing to the log. -/
theorem openIf_log {P : List (Api × Answer) → Prop} (ok : Bool) :
    Triple (fun l => P l.log) (openIf ok) fun h l => h.isSome = ok ∧ P l.log := by
  unfold openIf
  cases ok with
  | true => exact triple_acquire_log.bind fun _ => triple_pure fun _ h => ⟨rfl, h⟩
  | false => exact triple_pure fun _ h => ⟨rfl, h⟩

theorem openIf_quiet (ok : Bool) :
    Triple (fun l => Quiet φ n l.log) (openIf ok) fun _ l => Quiet φ n l.log :=
  (openIf_log ok).post fun _ _ => And.right

/-- Opening the manager is another call. -/
theorem assertOpen_quiet (hφ : ∀ r, ¬φ .OpenSCManager r) :
    Triple (fun l => Quiet φ n l.log) (assertOpen hscm) fun _ l => Quiet φ n l.log := by
  cases hscm with
  | some k => exact triple_pure fun _ h => h
  | none => exact (triple_ask_quiet hφ).bind fun r => openIf_quiet r.ok

/-- So is opening a service. -/
theorem openService_quiet (hφ : ∀ r, ¬φ .OpenService r) :
    Triple (fun l => Quiet φ n l.log) (openService hscm) fun _ l => Quiet φ n l.log :=
  (triple_askOn_quiet hφ).bind fun r => openIf_quiet r.ok

/-- A method with a service returns what its body returns, or `false`. -/
theorem withService_tells {body : ℕ → Calls Bool} {empty : Bool} (hbody : ∀ k, Tells φ n (body k))
    (hscm' : ∀ r, ¬φ .OpenSCManager r) (hopen : ∀ r, ¬φ .OpenService r) :
    Triple (fun l => Quiet φ n l.log) (withService empty body hscm) fun r l =>
      r.2 = true ↔ Ends φ n l.log := by
  refine (assertOpen_quiet hscm').bind fun hscm => ?_
  split_ifs
  · exact triple_pure fun _ => tells_false
  · refine (openService_quiet hopen).bind fun h => ?_
    cases h with
    | none => exact triple_pure fun _ => tells_false
    | some k => exact (hbody k).bind fun b => triple_pure fun _ h => h

/-- A script that ends with the call and closes the handle. -/
theorem release_tells {b : Bool} (h : Option ℕ) (c : Api) :
    Triple (fun l => b = true ↔ Ends φ n l.log) (do release c h; return b : Calls Bool)
      fun b l => b = true ↔ Ends φ n l.log :=
  (triple_release_log (P := fun log => b = true ↔ Ends φ n log)).bind fun _ => triple_pure fun _ h => h

/-- Whether the call was of the kind can be read off its answer. -/
theorem tells_last {r : Answer} {b : Bool} {l : Ledger Api Answer} (hb : b = true ↔ φ c r)
    (hl : (φ c r → Ends φ n l.log) ∧ (¬φ c r → Quiet φ n l.log)) : b = true ↔ Ends φ n l.log := by
  by_cases hr : φ c r
  · simp [hb.mpr hr, hl.1 hr]
  · simpa [hb, hr] using (hl.2 hr).not_ends

/-- Asking for the configuration is another call for those who do not return it. -/
theorem queryConfigInfo_quiet (hquery : ∀ b r, ¬φ (.QueryServiceConfig b) r)
    (halloc : ∀ r, ¬φ .LocalAlloc r) :
    Triple (fun l => Quiet φ n l.log) (queryConfigInfo k) fun _ l => Quiet φ n l.log := by
  have hread : ∀ pConf : Option ℕ,
      Triple (fun l => Quiet φ n l.log) (readConfig k pConf) fun _ l => Quiet φ n l.log := fun pConf => by
    refine (triple_askOn_quiet (hquery _)).bind fun r => ?_
    cases pConf with
    | none => exact triple_pure fun _ h => h
    | some m => exact triple_release_log.bind fun _ => triple_pure fun _ h => h
  refine (triple_askOn_quiet (hquery _)).bind fun r => ?_
  split_ifs
  · exact hread none
  · exact (triple_ask_quiet halloc).bind fun m => (openIf_quiet m.ok).bind hread
  · exact triple_pure fun _ h => h

/-- Up to `StartService` both `start` return `false`. -/
theorem startService_tells {started : Answer → Calls Bool}
    (hquery : ∀ b r, ¬φ (.QueryServiceConfig b) r) (halloc : ∀ r, ¬φ .LocalAlloc r)
    (hchange : ∀ r, ¬φ .ChangeServiceConfig r)
    (hstarted : ∀ r, Triple (fun l => (φ .StartService r → Ends φ n l.log) ∧
      (¬φ .StartService r → Quiet φ n l.log)) (started r) fun b l => b = true ↔ Ends φ n l.log) :
    Tells φ n (startService k started) := by
  have hclose : Tells φ n (do release .CloseServiceHandle (some k); return false) :=
    triple_release_log.bind fun _ => triple_pure fun _ => tells_false
  refine (queryConfigInfo_quiet hquery halloc).bind fun o => ?_
  cases o with
  | none => exact hclose
  | some conf =>
    have henable : Triple (fun l => Quiet φ n l.log) (enable conf k) fun _ l => Quiet φ n l.log := by
      unfold enable
      split_ifs
      · exact (triple_askOn_quiet hchange).bind fun _ => triple_pure fun _ h => h
      · exact triple_pure fun _ h => h
    refine henable.bind fun ok => ?_
    cases ok with
    | false => exact hclose
    | true => exact triple_askOn_last.bind hstarted

/-- `remove` returns whether the service was deleted. -/
theorem removeService_tells (empty : Bool) :
    Tells (Method.remove empty).Succeeds n (removeService k) :=
  triple_askOn_last.bind fun _ => (release_tells _ _).pre fun _ =>
    tells_last (by simp [Method.Succeeds])

/-- `stop` and `control` have no way to return `true`. -/
theorem controlService_tells (hφ : ∀ c r, ¬φ c r) : Tells φ n (controlService k) := by
  refine (triple_askOn_quiet (hφ _)).bind fun r => triple_release_log.bind fun _ =>
    triple_pure fun l hl => ?_
  simpa using hl.not_ends

/-- `start` returns `true` for a service that runs, and for one that could not be started. -/
theorem start_tells (empty : Bool) : Tells (Method.start empty).Succeeds n (start k) := by
  refine startService_tells (by simp [Method.Succeeds]) (by simp [Method.Succeeds])
    (by simp [Method.Succeeds]) fun r => ?_
  cases hok : r.ok with
  | false => exact triple_pure fun _ => tells_last (by simp [Method.Succeeds, hok])
  | true =>
    have hwait : Triple (fun l => Quiet (Method.start empty).Succeeds n l.log) (waitStartup k)
        fun o l => o.elim (Quiet (Method.start empty).Succeeds n l.log) fun b =>
          b = true ↔ Ends (Method.start empty).Succeeds n l.log := by
      refine triple_askOn_last.bind fun r => ?_
      cases hr : r.ok with
      | false => exact triple_pure fun _ => tells_last (by simp [Method.Succeeds, hr])
      | true =>
        by_cases hrunning : r.currentState = running
        · simp only [hrunning, Bool.not_true, Bool.false_eq_true, if_false, if_true]
          exact triple_pure fun _ => tells_last (by simp [Method.Succeeds, hr, hrunning])
        · simp only [hrunning, Bool.not_true, Bool.false_eq_true, if_false]
          split_ifs
          · exact triple_pure fun _ => tells_last (by simp [Method.Succeeds, hrunning])
          · exact triple_pure fun _ hl => hl.2 (by simp [Method.Succeeds, hrunning])
    exact (triple_forever hwait).pre fun l hl => hl.2 (by simp [Method.Succeeds, hok])

/-- `start` with arguments returns whether the service was started. -/
theorem startArgs_tells (empty : Bool) : Tells (Method.startArgs empty).Succeeds n (startArgs k) :=
  startService_tells (by simp [Method.Succeeds]) (by simp [Method.Succeeds])
    (by simp [Method.Succeeds]) fun _ => triple_pure fun _ => tells_last (by simp [Method.Succeeds])

/-- `create` returns whether the service was created or existed. -/
theorem create_tells (description : Bool) :
    Triple (fun l => Quiet (Method.create description).Succeeds n l.log) (create description hscm)
      fun r l => r.2 = true ↔ Ends (Method.create description).Succeeds n l.log := by
  refine (assertOpen_quiet (by simp [Method.Succeeds])).bind fun hscm => ?_
  cases hscm with
  | none => exact triple_pure fun _ => tells_false
  | some m =>
    refine triple_askOn_last.bind fun r => (openIf_log (P := fun log =>
      ((Method.create description).Succeeds .CreateService r →
        Ends (Method.create description).Succeeds n log) ∧
        (¬(Method.create description).Succeeds .CreateService r →
          Quiet (Method.create description).Succeeds n log)) r.ok).bind fun h => ?_
    cases h with
    | none =>
      refine triple_pure fun l ⟨hok, hl⟩ => tells_last ?_ hl
      have hok' : r.ok = false := hok.symm
      simp [Method.Succeeds, hok']
    | some k =>
      have hends : ∀ l : Ledger Api Answer, (some k).isSome = r.ok ∧
          ((Method.create description).Succeeds .CreateService r →
            Ends (Method.create description).Succeeds n l.log) ∧
            (¬(Method.create description).Succeeds .CreateService r →
              Quiet (Method.create description).Succeeds n l.log) →
          Ends (Method.create description).Succeeds n l.log := fun l ⟨hok, hl⟩ =>
        hl.1 (.inl ⟨rfl, .inl hok.symm⟩)
      have hclose : Triple (fun l => Ends (Method.create description).Succeeds n l.log) (do
          release .CloseServiceHandle (some k)
          return (some m, true) : Calls (Option ℕ × Bool))
          fun r l => r.2 = true ↔ Ends (Method.create description).Succeeds n l.log :=
        triple_release_log.bind fun _ => triple_pure fun _ h => by simpa using h
      cases description with
      | true => exact ((triple_askOn_ends fun _ => .inr rfl).bind fun _ => hclose).pre hends
      | false => exact hclose.pre hends

/-- `changeStartType` returns whether the type was changed. -/
theorem changeStartType_tells (empty : Bool) :
    Triple (fun l => Quiet (Method.changeStartType empty).Succeeds n l.log)
      (changeStartType empty hscm)
      fun r l => r.2 = true ↔ Ends (Method.changeStartType empty).Succeeds n l.log := by
  refine (assertOpen_quiet (by simp [Method.Succeeds])).bind fun hscm => ?_
  split_ifs
  · exact triple_pure fun _ => tells_false
  · refine (openService_quiet (by simp [Method.Succeeds])).bind fun h => ?_
    have hchange : Tells (Method.changeStartType empty).Succeeds n (changeStartTypeOf h) := by
      cases h with
      | none => exact triple_pure fun _ => tells_false
      | some k =>
        exact triple_askOn_last.bind fun r => triple_pure fun _ => tells_last (by simp [Method.Succeeds])
    exact hchange.bind fun brt => (triple_release_log (P := fun log =>
      brt = true ↔ Ends (Method.changeStartType empty).Succeeds n log)).bind fun _ =>
        triple_pure fun _ h => h

/-- `queryConfigInfo` finds a configuration when the last query had a buffer for it. -/
theorem queryConfigInfo_tells (empty : Bool) :
    Triple (fun l => Quiet (Method.queryConfigInfo empty).Succeeds n l.log) (queryConfigInfo k)
      fun o l => o.isSome = true ↔ Ends (Method.queryConfigInfo empty).Succeeds n l.log := by
  have hread : ∀ pConf : Option ℕ,
      Triple (fun l => Quiet (Method.queryConfigInfo empty).Succeeds n l.log) (readConfig k pConf)
        fun o l => o.isSome = true ↔ Ends (Method.queryConfigInfo empty).Succeeds n l.log :=
    fun pConf => by
      refine triple_askOn_last.bind fun r => ?_
      cases pConf with
      | none => exact triple_pure fun _ => tells_last (by simp [Method.Succeeds])
      | some m =>
        exact triple_release_log (P := fun log =>
          ((Method.queryConfigInfo empty).Succeeds (.QueryServiceConfig true) r →
            Ends (Method.queryConfigInfo empty).Succeeds n log) ∧
            (¬(Method.queryConfigInfo empty).Succeeds (.QueryServiceConfig true) r →
              Quiet (Method.queryConfigInfo empty).Succeeds n log)) |>.bind fun _ =>
          triple_pure fun _ => tells_last (by simp [Method.Succeeds])
  refine (triple_askOn_quiet (by simp [Method.Succeeds])).bind fun r => ?_
  split_ifs
  · exact hread none
  · exact (triple_ask_quiet (by simp [Method.Succeeds])).bind fun m => (openIf_quiet m.ok).bind hread
  · exact triple_pure fun _ => tells_false

/-- So does the method of that name. -/
theorem queryService_tells (empty : Bool) :
    Tells (Method.queryConfigInfo empty).Succeeds n (queryService k) :=
  (queryConfigInfo_tells empty).bind fun o => release_tells (b := o.isSome) _ _

/-- The manager is there when it could be opened. -/
theorem assertOpen_tells {m : Method} (hm : ∀ c r, m.Succeeds c r ↔ c = .OpenSCManager ∧ r.ok) :
    Triple (fun l => Quiet m.Succeeds n l.log) (assertOpen none) fun h l =>
      h.isSome = true ↔ Ends m.Succeeds n l.log :=
  triple_ask_last.bind fun r => (openIf_log (P := fun log =>
    (m.Succeeds .OpenSCManager r → Ends m.Succeeds n log) ∧
      (¬m.Succeeds .OpenSCManager r → Quiet m.Succeeds n log)) r.ok).post
    fun h l hl => tells_last (by simp [hm, hl.1]) hl.2

/-- `reOpen` returns whether the manager could be opened. -/
theorem reOpen_tells :
    Triple (fun l => Quiet Method.reOpen.Succeeds n l.log) (Method.reOpen.call hscm) fun r l =>
      r.2 = true ↔ Ends Method.reOpen.Succeeds n l.log := by
  have hclose : Triple (fun l => Quiet Method.reOpen.Succeeds n l.log) (close hscm) fun _ l =>
      Quiet Method.reOpen.Succeeds n l.log := by
    cases hscm with
    | none => exact triple_pure fun _ h => h
    | some k => exact triple_release_log
  exact hclose.bind fun _ => (assertOpen_tells fun _ _ => Iff.rfl).bind fun _ =>
    triple_pure fun _ h => h

/-- A method that does not look at the member only. -/
theorem tells_or {m : Method} {b : Bool} {l : Ledger Api Answer} (hm : ¬m.Holds hscm)
    (h : b = true ↔ Ends m.Succeeds n l.log) :
    b = true ↔ m.Holds hscm ∨ Ends m.Succeeds n l.log :=
  h.trans (or_iff_right hm).symm

/-- What each method returns, by what it finds open and the last call it makes. -/
theorem call_tells (m : Method) :
    Triple (fun l => Quiet m.Succeeds n l.log) (m.call hscm) fun r l =>
      r.2 = true ↔ m.Holds hscm ∨ Ends m.Succeeds n l.log := by
  have hservice {body : ℕ → Calls Bool} {m : Method} {empty : Bool}
      (hbody : ∀ k, Tells m.Succeeds n (body k)) (hm : ¬m.Holds hscm)
      (hscm' : ∀ r, ¬m.Succeeds .OpenSCManager r) (hopen : ∀ r, ¬m.Succeeds .OpenService r) :
      Triple (fun l => Quiet m.Succeeds n l.log) (withService empty body hscm) fun r l =>
        r.2 = true ↔ m.Holds hscm ∨ Ends m.Succeeds n l.log :=
    (withService_tells hbody hscm' hopen).post fun _ _ => tells_or hm
  cases m with
  | isOpen => exact triple_pure fun l hl => (or_iff_left hl.not_ends).symm
  | assertOpen =>
    cases hscm with
    | none =>
      exact ((assertOpen_tells fun _ _ => Iff.rfl).bind fun _ => triple_pure fun _ h => h).post
        fun _ _ => tells_or (by simp [Method.Holds])
    | some k => exact triple_pure fun l _ => by simp [Method.Holds]
  | remove empty =>
    exact hservice (fun _ => removeService_tells empty) id (by simp [Method.Succeeds])
      (by simp [Method.Succeeds])
  | create description => exact (create_tells description).post fun _ _ => tells_or id
  | stop empty | control empty =>
    exact hservice (fun _ => controlService_tells (by simp [Method.Succeeds])) id
      (by simp [Method.Succeeds]) (by simp [Method.Succeeds])
  | start empty =>
    exact hservice (fun _ => start_tells empty) id (by simp [Method.Succeeds])
      (by simp [Method.Succeeds])
  | startArgs empty =>
    exact hservice (fun _ => startArgs_tells empty) id (by simp [Method.Succeeds])
      (by simp [Method.Succeeds])
  | query => exact triple_pure fun _ hl => tells_or id (tells_false hl)
  | queryConfigInfo empty =>
    exact hservice (fun _ => queryService_tells empty) id (by simp [Method.Succeeds])
      (by simp [Method.Succeeds])
  | changeStartType empty => exact (changeStartType_tells empty).post fun _ _ => tells_or id
  | reOpen => exact reOpen_tells.post fun _ _ => tells_or id

/-- Whatever the system answers, what a method returns is decided by the last call it made that was
not to give something back, or by what was open already: `stop` and `control` always return `false`,
and `start` returns `true` for a service that runs in the end and for most of those that could not
be started. -/
theorem call_true_iff (m : Method) {l l' : Ledger Api Answer} {as as' : List Answer}
    {r : Option ℕ × Bool} (h : m.call hscm l as = some ((r, l'), as')) :
    r.2 = true ↔ m.Holds hscm ∨ Ends m.Succeeds l.log.length l'.log :=
  call_tells m l as r l' as' (quiet_length l.log) h

/-- The service cannot be started, for lack of access. -/
def refused : List Answer :=
  [granted, granted, tooShort, granted, granted, { granted with ok := false, error := 5 }]

/-- `start` returns `true` then. -/
theorem call_true_iff_refused :
    ∃ r l as', (Method.start false).call none Ledger.empty refused = some ((r, l), as') ∧
      r.2 = true ∧ Ends (Method.start false).Succeeds 0 l.log := by
  have hend : ((Method.start false).call none Ledger.empty refused).map (fun r => r.1.1.2) =
      some true := by decide +kernel
  obtain ⟨⟨⟨r, l⟩, as'⟩, hcall, hr⟩ := Option.map_eq_some_iff.mp hend
  exact ⟨r, l, as', hcall, hr, ((call_true_iff (.start false) hcall).mp hr).resolve_left id⟩

end Results

end KernelLib.ServiceOperater
