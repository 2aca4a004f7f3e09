import KernelLib.ServiceOperater

/-!
# The driver installer

`LoadNTDriver`, `StopSvr` and `DelSvr` close the handles they open one by one,
by scope guards or at the end of a `do` block that is left early. Whatever the
system answers, none stays open and none is closed twice. The exit code of the
installer is read off the calls it made: a driver counts as installed once
it was started, whether or not it runs in the end, and an uninstallation
waits until the service has stopped.
-/

namespace KernelLib.InstallDriver

open HandleLedger ServiceOperater

/-- `ERROR_IO_PENDING`. -/
def ioPending : ℕ := 997

/-- `SERVICE_STOPPED`. -/
def stopped : ℕ := 1

/-- `OpenSCManager`. -/
def openManager : Calls (Option ℕ) := do
  let r ← ask .OpenSCManager
  openIf r.ok

/-- Open the manager, go on with it and close it. -/
def withManager (body : ℕ → Calls Bool) : Calls Bool := do
  match ← openManager with
  | none => return false
  | some mgr =>
    let rt ← body mgr
    release .CloseServiceHandle (some mgr)
    return rt

/-- Go on with a service, if it was opened, and close it. -/
def withHandle (body : ℕ → Calls Bool) : Option ℕ → Calls Bool
  | none => pure false
  | some svc => do
    let rt ← body svc
    release .CloseServiceHandle (some svc)
    return rt

/-- `CreateService`, or `OpenService` for a service that exists. -/
def createOrOpen (mgr : ℕ) : Calls (Option ℕ) := do
  let r ← askOn .CreateService (some mgr)
  if r.ok then some <$> acquire
  else if r.error ≠ ioPending ∧ r.error ≠ serviceExists then return none
  else openService (some mgr)

/-- A round of the loop of `LoadNTDriver`, with the value `bRet` gets. -/
def waitDriver (ddk : ℕ) (startTick : BitVec 32) : Calls (Option Bool) := do
  let r ← askOn .QueryServiceStatus (some ddk)
  if !r.ok then return some true
  if r.currentState = running then return some true
  let t ← ask .GetTickCount
  if 1000 < t.tick - startTick then return some false
  if r.waitHint = 0 then return some false
  return none

/-- `LoadNTDriver` from `StartService` on. -/
def startDriver (ddk : ℕ) : Calls Bool := do
  let r ← askOn .StartService (some ddk)
  if !r.ok then return r.error = alreadyRunning
  let startTick ← ask .GetTickCount
  let _ ← forever (waitDriver ddk startTick.tick)
  -- what the loop found is overwritten
  return true

/-- `LoadNTDriver`. -/
def loadNTDriver : Calls Bool :=
  withManager fun mgr => do
    let ddk ← createOrOpen mgr
    withHandle startDriver ddk

/-- A round of the loop of `StopSvr`. -/
def waitStop (svc : ℕ) (dwTimeOut dwStartTick : BitVec 32) : Calls (Option Bool) := do
  let r ← askOn .QueryServiceStatusEx (some svc)
  if !r.ok then return some false
  if r.currentState = stopped then return some true
  let t ← ask .GetTickCount
  if dwTimeOut < t.tick - dwStartTick then return some false
  return none

/-- `StopSvr` of an open service. -/
def stopOpened (dwTimeOut : BitVec 32) (svc : ℕ) : Calls Bool := do
  let r ← askOn .QueryServiceStatusEx (some svc)
  if !r.ok then return false
  if r.currentState = stopped then return true
  let dwStartTick ← ask .GetTickCount
  let c ← askOn .ControlService (some svc)
  if !c.ok then return false
  if c.currentState = stopped then return true
  forever (waitStop svc dwTimeOut dwStartTick.tick)

/-- `StopSvr`. -/
def stopSvr (dwTimeOut : BitVec 32) : Calls Bool :=
  withManager fun mgr => do
    let svc ← openService (some mgr)
    withHandle (stopOpened dwTimeOut) svc

/-- `DelSvr` of an open service. -/
def delOpened (svc : ℕ) : Calls Bool := do
  let _ ← askOn .ControlService (some svc)
  let r ← askOn .DeleteService (some svc)
  return r.ok

/-- `DelSvr`. -/
def delSvr : Calls Bool :=
  withManager fun mgr => do
    let svc ← openService (some mgr)
    withHandle delOpened svc

/-- The command line, as far as `main` looks at it. -/
structure Options where
  /-- It could be parsed. -/
  init : Bool
  /-- `--help`. -/
  help : Bool
  /-- `--install`. -/
  install : Bool
  /-- `--uninstall`. -/
  uninstall : Bool
  /-- `--name` is missing or empty. -/
  nameEmpty : Bool
  /-- `--path-image` is missing or empty. -/
  imageEmpty : Bool
  deriving DecidableEq, Repr

/-- `main`, with its exit code. -/
def main (o : Options) : Calls Int := do
  if !o.init then return -1
  if o.help then return 0
  if o.install then
    if o.nameEmpty || o.imageEmpty then return -1
    if !(← loadNTDriver) then return -1
    return 0
  else if o.uninstall then
    if o.nameEmpty then return -1
    if !(← stopSvr 0xffffffff) then return -1
    if !(← delSvr) then return -1
    return 0
  else return -1

section Handles

variable {L : List ℕ} {k : ℕ} {c : Api} {o : Options}

/-- These handles are open, and no call went to another one. -/
abbrev Open (L : List ℕ) (l : Ledger Api Answer) : Prop := Books (fun _ => false) L [] 0 l

/-- What was granted is open. -/
theorem openIf_open (ok : Bool) :
    Triple (Open L) (openIf ok) fun h => Open (h.toList ++ L) := by
  unfold openIf
  split_ifs
  · exact triple_acquire.bind fun k => triple_pure fun _ h => h
  · exact triple_pure fun _ h => h

/-- A call with an open handle leaves the handles as they are. -/
theorem askOn_open (hk : k ∈ L) : Triple (Open L) (askOn c (some k)) fun _ => Open L :=
  triple_askOn_books hk fun _ => rfl

/-- A service is opened over an open manager. -/
theorem openService_open (hk : k ∈ L) :
    Triple (Open L) (openService (some k)) fun h => Open (h.toList ++ L) :=
  (askOn_open hk).bind fun r => openIf_open r.ok

/-- The manager is closed, whatever is done with it. -/
theorem withManager_open {body : ℕ → Calls Bool}
    (hbody : ∀ k, Triple (Open (k :: L)) (body k) fun _ => Open (k :: L)) :
    Triple (Open L) (withManager body) fun _ => Open L := by
  refine ((triple_ask_books fun _ => rfl).bind fun r => openIf_open r.ok).bind fun h => ?_
  cases h with
  | none => exact triple_pure fun _ h => h
  | some mgr => exact (hbody mgr).bind fun _ => triple_release_last.bind fun _ => triple_pure fun _ h => h

/-- So is a service. -/
theorem withHandle_open {body : ℕ → Calls Bool} {h : Option ℕ}
    (hbody : ∀ k, Triple (Open (k :: L)) (body k) fun _ => Open (k :: L)) :
    Triple (Open (h.toList ++ L)) (withHandle body h) fun _ => Open L := by
  cases h with
  | none => exact triple_pure fun _ h => h
  | some k => exact (hbody k).bind fun _ => triple_release_last.bind fun _ => triple_pure fun _ h => h

/-- A service is created or opened over an open manager. -/
theorem createOrOpen_open (hk : k ∈ L) :
    Triple (Open L) (createOrOpen k) fun h => Open (h.toList ++ L) := by
  refine (askOn_open hk).bind fun r => ?_
  split_ifs
  · exact triple_acquire.bind fun k => triple_pure fun _ h => h
  · exact triple_pure fun _ h => h
  · exact openService_open hk

/-- Starting a driver leaves the handles as they are. -/
theorem startDriver_open : Triple (Open (k :: L)) (startDriver k) fun _ => Open (k :: L) := by
  refine (askOn_open List.mem_cons_self).bind fun r => ?_
  split_ifs
  · exact triple_pure fun _ h => h
  · refine (triple_ask_books fun _ => rfl).bind fun t => ?_
    refine (triple_forever (Q := fun _ => Open (k :: L)) ?_).bind fun _ => triple_pure fun _ h => h
    refine (askOn_open List.mem_cons_self).bind fun r => ?_
    split_ifs
    · exact triple_pure fun _ h => h
    · exact triple_pure fun _ h => h
    all_goals
      refine (triple_ask_books fun _ => rfl).bind fun t => ?_
      split_ifs <;> exact triple_pure fun _ h => h

/-- `LoadNTDriver` closes what it opens. -/
theorem loadNTDriver_open : Triple (Open L) loadNTDriver fun _ => Open L :=
  withManager_open fun _ => (createOrOpen_open List.mem_cons_self).bind fun _ =>
    withHandle_open fun _ => startDriver_open

/-- Stopping a service leaves the handles as they are. -/
theorem stopOpened_open (dwTimeOut : BitVec 32) :
    Triple (Open (k :: L)) (stopOpened dwTimeOut k) fun _ => Open (k :: L) := by
  have hpure : ∀ b : Bool, Triple (Open (k :: L)) (pure b : Calls Bool) fun _ => Open (k :: L) :=
    fun _ => triple_pure fun _ h => h
  refine (askOn_open List.mem_cons_self).bind fun r => ?_
  split_ifs
  · exact hpure _
  · exact hpure _
  · refine (triple_ask_books fun _ => rfl).bind fun t => (askOn_open List.mem_cons_self).bind fun c => ?_
    split_ifs
    · exact hpure _
    · exact hpure _
    · refine triple_forever ((askOn_open List.mem_cons_self).bind fun r => ?_)
      split_ifs
      · exact triple_pure fun _ h => h
      · exact triple_pure fun _ h => h
      · refine (triple_ask_books fun _ => rfl).bind fun t => ?_
        split_ifs <;> exact triple_pure fun _ h => h

/-- `StopSvr` closes what it opens. -/
theorem stopSvr_open (dwTimeOut : BitVec 32) : Triple (Open L) (stopSvr dwTimeOut) fun _ => Open L :=
  withManager_open fun _ => (openService_open List.mem_cons_self).bind fun _ =>
    withHandle_open fun _ => stopOpened_open dwTimeOut

/-- `DelSvr` closes what it opens. -/
theorem delSvr_open : Triple (Open L) delSvr fun _ => Open L :=
  withManager_open fun _ => (openService_open List.mem_cons_self).bind fun _ =>
    withHandle_open fun _ => (askOn_open List.mem_cons_self).bind fun _ =>
      (askOn_open List.mem_cons_self).bind fun _ => triple_pure fun _ h => h

/-- The installer closes what it opens. -/
theorem main_open : Triple (Open L) (main o) fun _ => Open L := by
  have hexit : ∀ code : Int, Triple (Open L) (pure code : Calls Int) fun _ => Open L :=
    fun _ => triple_pure fun _ h => h
  unfold main
  split_ifs
  · exact hexit _
  · exact hexit _
  · exact hexit _
  · refine loadNTDriver_open.bind fun ok => ?_
    split_ifs <;> exact hexit _
  · exact hexit _
  · refine (stopSvr_open _).bind fun ok => ?_
    split_ifs
    · exact hexit _
    · refine delSvr_open.bind fun ok => ?_
      split_ifs <;> exact hexit _
  · exact hexit _

end Handles

section Results

variable {φ : Api → Answer → Prop} {b : Prop} {n k : ℕ} {c : Api}

/-- `StartService` succeeded, or the driver runs already. -/
def started (c : Api) (r : Answer) : Prop := c = .StartService ∧ (r.ok ∨ r.error = alreadyRunning)

/-- The service is reported to have stopped. -/
def reportedStopped (c : Api) (r : Answer) : Prop :=
  (c = .QueryServiceStatusEx ∨ c = .ControlService) ∧ r.ok ∧ r.currentState = stopped

/-- `DeleteService` succeeded. -/
def deleted (c : Api) (r : Answer) : Prop := c = .DeleteService ∧ r.ok

section Calls

variable {cs : Api → Prop} {body : ℕ → Calls Bool} {h : Option ℕ}

/-- Opening something is no call of its own. -/
theorem openIf_within (ok : Bool) : Within cs (openIf ok) := by
  unfold openIf
  split_ifs
  · exact within_acquire.bind fun _ => within_pure _
  · exact within_pure _

theorem openManager_within (hc : cs .OpenSCManager) : Within cs openManager :=
  (within_ask hc).bind fun r => openIf_within r.ok

theorem openService_within (hc : cs .OpenService) : Within cs (openService h) :=
  (within_askOn hc).bind fun r => openIf_within r.ok

theorem createOrOpen_within (hcreate : cs .CreateService) (hopen : cs .OpenService) :
    Within cs (createOrOpen k) := by
  refine (within_askOn hcreate).bind fun r => ?_
  split_ifs
  · exact within_acquire.bind fun _ => within_pure _
  · exact within_pure _
  · exact openService_within hopen

theorem stopOpened_within {dwTimeOut : BitVec 32} (hstatus : cs .QueryServiceStatusEx)
    (htick : cs .GetTickCount) (hcontrol : cs .ControlService) :
    Within cs (stopOpened dwTimeOut k) := by
  refine (within_askOn hstatus).bind fun r => ?_
  split_ifs
  · exact within_pure _
  · exact within_pure _
  · refine (within_ask htick).bind fun t => (within_askOn hcontrol).bind fun c => ?_
    split_ifs
    · exact within_pure _
    · exact within_pure _
    · refine within_forever ((within_askOn hstatus).bind fun r => ?_)
      split_ifs
      · exact within_pure _
      · exact within_pure _
      · refine (within_ask htick).bind fun t => ?_
        split_ifs <;> exact within_pure _

theorem waitDriver_within (hstatus : cs .QueryServiceStatus) (htick : cs .GetTickCount)
    (startTick : BitVec 32) : Within cs (waitDriver k startTick) := by
  refine (within_askOn hstatus).bind fun r => ?_
  split_ifs
  · exact within_pure _
  · exact within_pure _
  all_goals
    refine (within_ask htick).bind fun t => ?_
    split_ifs <;> exact within_pure _

theorem startDriver_within (hstart : cs .StartService) (hstatus : cs .QueryServiceStatus)
    (htick : cs .GetTickCount) : Within cs (startDriver k) := by
  refine (within_askOn hstart).bind fun r => ?_
  split_ifs
  · exact within_pure _
  · exact (within_ask htick).bind fun t =>
      (within_forever (waitDriver_within hstatus htick _)).bind fun _ => within_pure _

/-- Going on with the manager makes the calls of the body besides. -/
theorem withManager_within (hc : cs .OpenSCManager) (hbody : ∀ k, Within cs (body k)) :
    Within cs (withManager body) := by
  refine (openManager_within hc).bind fun h => ?_
  cases h with
  | none => exact within_pure _
  | some mgr => exact (hbody mgr).bind fun _ => within_release.bind fun _ => within_pure _

/-- Going on with a service makes the calls of the body. -/
theorem withHandle_within (hbody : ∀ k, Within cs (body k)) : Within cs (withHandle body h) := by
  cases h with
  | none => exact within_pure _
  | some k => exact (hbody k).bind fun _ => within_release.bind fun _ => within_pure _

/-- `LoadNTDriver` deletes nothing. -/
theorem loadNTDriver_within (hcs : ∀ c, c ≠ .DeleteService → cs c) : Within cs loadNTDriver :=
  withManager_within (hcs _ (by decide)) fun _ =>
    (createOrOpen_within (hcs _ (by decide)) (hcs _ (by decide))).bind fun _ =>
      withHandle_within fun _ =>
        startDriver_within (hcs _ (by decide)) (hcs _ (by decide)) (hcs _ (by decide))

/-- `StopSvr` deletes nothing. -/
theorem stopSvr_within {dwTimeOut : BitVec 32} (hcs : ∀ c, c ≠ .DeleteService → cs c) :
    Within cs (stopSvr dwTimeOut) :=
  withManager_within (hcs _ (by decide)) fun _ => (openService_within (hcs _ (by decide))).bind fun _ =>
    withHandle_within fun _ =>
      stopOpened_within (hcs _ (by decide)) (hcs _ (by decide)) (hcs _ (by decide))

end Calls

/-- `LoadNTDriver` returns whether the driver was started or ran already. -/
theorem startDriver_hit :
    Triple (fun l => ¬Hit started l.log) (startDriver k) fun b l => b = true ↔ Hit started l.log := by
  refine triple_askOn_hit.bind fun r => ?_
  cases hok : r.ok with
  | false => exact triple_pure fun l hl => by simp [hl, started, hok]
  | true =>
    -- from here on the service has been started, whatever the loop finds
    refine Triple.pre ?_ fun l hl => hl.mpr ⟨rfl, .inl hok⟩
    refine (triple_hit (φ := started) (within_ask trivial)).bind fun t => ?_
    refine (triple_hit (within_forever (waitDriver_within trivial trivial t.tick))).bind fun _ => ?_
    exact triple_pure fun l hl => by simpa using hl

/-- What is returned stays right while handles are closed. -/
theorem close_hit {bRet : Bool} (h : Option ℕ) :
    Triple (fun l => bRet = true ↔ Hit φ l.log)
      (do release .CloseServiceHandle h; return bRet : Calls Bool)
      fun b l => b = true ↔ Hit φ l.log :=
  (triple_release_log (P := fun log => bRet = true ↔ Hit φ log)).bind fun _ => triple_pure fun _ h => h

/-- `LoadNTDriver` returns `TRUE` for a driver that it started or that ran, even if the loop gave
up waiting for it. -/
theorem loadNTDriver_hit :
    Triple (fun l => ¬Hit started l.log) loadNTDriver fun b l => b = true ↔ Hit started l.log := by
  have hother : ∀ c, c ≠ .StartService → ∀ r, ¬started c r := fun c hc r h => hc h.1
  have hfalse : Triple (fun l => ¬Hit started l.log) (pure false : Calls Bool) fun b l =>
      b = true ↔ Hit started l.log := triple_pure fun l hl => by simpa using hl
  refine (triple_not_hit (openManager_within (hother _ (by decide)))).bind fun mgr => ?_
  cases mgr with
  | none => exact hfalse
  | some mgr =>
    refine Triple.bind (Q := fun b l => b = true ↔ Hit started l.log) ?_ fun b => close_hit _
    refine (triple_not_hit (createOrOpen_within (hother _ (by decide)) (hother _ (by decide)))).bind
      fun ddk => ?_
    cases ddk with
    | none => exact hfalse
    | some ddk => exact startDriver_hit.bind fun b => close_hit _

/-- `DelSvr` returns `TRUE` if the last call deleted the service. -/
theorem delSvr_tells : Tells deleted n delSvr := by
  have hother : ∀ c, c ≠ .DeleteService → ∀ r, ¬deleted c r := fun c hc r h => hc h.1
  refine (triple_quiet (openManager_within (hother _ (by decide)))).bind fun mgr => ?_
  cases mgr with
  | none => exact triple_pure fun _ => tells_false
  | some mgr =>
    refine Triple.bind (Q := fun b l => b = true ↔ Ends deleted n l.log) ?_ fun b => release_tells _ _
    refine (triple_quiet (openService_within (hother _ (by decide)))).bind fun svc => ?_
    cases svc with
    | none => exact triple_pure fun _ => tells_false
    | some svc =>
      refine Triple.bind (Q := fun b l => b = true ↔ Ends deleted n l.log) ?_ fun b => release_tells _ _
      exact (triple_askOn_quiet (hother _ (by decide))).bind fun _ => triple_askOn_last.bind fun r =>
        triple_pure fun _ => tells_last (by simp [deleted])

/-- Only a service that was reported to have stopped is deleted. -/
def Ordered (log : List (Api × Answer)) : Prop :=
  ∀ earlier e later, log = earlier ++ e :: later → e.1 = .DeleteService → Hit reportedStopped earlier

/-- A call keeps the order unless it deletes a service that was not reported to have stopped. -/
theorem Ordered.snoc {log : List (Api × Answer)} {r : Answer} (h : Ordered log)
    (hc : c = .DeleteService → Hit reportedStopped log) : Ordered (log ++ [(c, r)]) := by
  intro earlier e later he hdelete
  rcases List.eq_nil_or_concat later with rfl | ⟨later, e', rfl⟩
  · obtain ⟨rfl, heq⟩ := List.append_inj' he rfl
    obtain rfl := (List.cons.inj heq).1
    exact hc hdelete
  · have he' : log ++ [(c, r)] = (earlier ++ e :: later) ++ [e'] := by simpa using he
    exact h earlier e later (List.append_inj' he' rfl).1 hdelete

/-- What `StopSvr` and its parts return. -/
def StopTells (b : Bool) (l : Ledger Api Answer) : Prop := b = true → Hit reportedStopped l.log

/-- Nothing is promised for a service that was not stopped. -/
theorem stopTells_false {P : Ledger Api Answer → Prop} :
    Triple P (pure false : Calls Bool) StopTells := triple_pure fun _ _ h => by cases h

/-- Closing a handle does not change what is known. -/
theorem close_stopTells {b : Bool} (h : Option ℕ) :
    Triple (StopTells b) (do release .CloseServiceHandle h; return b : Calls Bool) StopTells :=
  (triple_release_log (P := fun log => b = true → Hit reportedStopped log)).bind fun _ =>
    triple_pure fun _ h => h

/-- The loop of `StopSvr` returns `true` for a service that stopped. -/
theorem waitStop_tells (dwTimeOut t : BitVec 32) :
    Triple (fun _ => True) (waitStop k dwTimeOut t) fun o l => o.elim True fun b => StopTells b l := by
  refine (triple_askOn_hits (φ := reportedStopped)).bind fun r => ?_
  cases hok : r.ok with
  | false => exact triple_pure fun _ _ h => by cases h
  | true =>
    by_cases hr : r.currentState = stopped
    · simp only [hr, Bool.not_true, Bool.false_eq_true, if_false, if_true]
      exact triple_pure fun l hl _ => (hl ⟨.inl rfl, hok, hr⟩).1
    · simp only [hr, Bool.not_true, Bool.false_eq_true, if_false]
      refine (triple_true _).bind fun t => ?_
      split_ifs
      · exact triple_pure fun _ _ h => by cases h
      · exact triple_pure fun _ _ => trivial

/-- So does the rest of `StopSvr`. -/
theorem stopOpened_tells (dwTimeOut : BitVec 32) :
    Triple (fun _ => True) (stopOpened dwTimeOut k) StopTells := by
  refine (triple_askOn_hits (φ := reportedStopped)).bind fun r => ?_
  cases hok : r.ok with
  | false => exact stopTells_false
  | true =>
    by_cases hr : r.currentState = stopped
    · simp only [hr, Bool.not_true, Bool.false_eq_true, if_false, if_true]
      exact triple_pure fun l hl _ => (hl ⟨.inl rfl, hok, hr⟩).1
    · simp only [hr, Bool.not_true, Bool.false_eq_true, if_false]
      refine (triple_true _).bind fun t => (triple_askOn_hits (φ := reportedStopped)).bind fun c => ?_
      cases hok : c.ok with
      | false => exact stopTells_false
      | true =>
        by_cases hc : c.currentState = stopped
        · simp only [hc, Bool.not_true, Bool.false_eq_true, if_false, if_true]
          exact triple_pure fun l hl _ => (hl ⟨.inr rfl, hok, hc⟩).1
        · simp only [hc, Bool.not_true, Bool.false_eq_true, if_false]
          exact (triple_forever (waitStop_tells dwTimeOut t.tick)).pre fun _ _ => trivial

/-- `StopSvr` returns `TRUE` for a service that was reported to have stopped. -/
theorem stopSvr_tells (dwTimeOut : BitVec 32) :
    Triple (fun _ => True) (stopSvr dwTimeOut) StopTells := by
  refine (triple_true _).bind fun mgr => ?_
  cases mgr with
  | none => exact stopTells_false
  | some mgr =>
    refine Triple.bind (Q := StopTells) ?_ fun b => close_stopTells _
    refine (triple_true _).bind fun svc => ?_
    cases svc with
    | none => exact stopTells_false
    | some svc => exact (stopOpened_tells dwTimeOut).bind fun b => close_stopTells _

/-- It asks for nothing to be deleted. -/
theorem stopSvr_ordered (dwTimeOut : BitVec 32) :
    Triple (fun l => Ordered l.log) (stopSvr dwTimeOut) fun _ l => Ordered l.log :=
  stopSvr_within (fun _ hc => hc) _ fun _ _ _ hc hl => hl.snoc fun h => (hc h).elim

/-- `StopSvr` is not what deletes a service. -/
theorem stopSvr_quiet (dwTimeOut : BitVec 32) :
    Triple (fun l => Quiet deleted n l.log) (stopSvr dwTimeOut) fun _ l => Quiet deleted n l.log :=
  triple_quiet (stopSvr_within fun _ hc _ h => hc h.1)

/-- `DelSvr` comes in order once the service has stopped. -/
theorem delSvr_ordered :
    Triple (fun l => Ordered l.log ∧ Hit reportedStopped l.log) delSvr
      fun _ l => Ordered l.log ∧ Hit reportedStopped l.log := by
  have hdel : Within (fun _ => True) delSvr :=
    withManager_within trivial fun _ => (openService_within trivial).bind fun _ =>
      withHandle_within fun _ => (within_askOn trivial).bind fun _ => (within_askOn trivial).bind
        fun _ => within_pure _
  exact hdel (fun log => Ordered log ∧ Hit reportedStopped log) fun _ _ _ _ hl =>
    ⟨hl.1.snoc fun _ => hl.2, hl.2.append _⟩

/-- `LoadNTDriver` deletes nothing, so it is in order. -/
theorem loadNTDriver_ordered :
    Triple (fun l => Ordered l.log) loadNTDriver fun _ l => Ordered l.log :=
  loadNTDriver_within (fun _ hc => hc) _ fun _ _ _ hc hl => hl.snoc fun h => (hc h).elim

/-- What the exit code 0 says. -/
def Options.Done (o : Options) (log : List (Api × Answer)) : Prop :=
  o.init ∧ (o.help ∨ if o.install then Hit started log else o.uninstall ∧ Ends deleted 0 log)

/-- The installer has not called anything yet. -/
def Idle (l : Ledger Api Answer) : Prop := l.log = []

/-- Before the first call none was of a kind. -/
theorem Idle.not_hit {l : Ledger Api Answer} (h : Idle l) : ¬Hit φ l.log := by
  simp [show l.log = [] from h, Hit]

/-- Nor was the last one. -/
theorem Idle.quiet {l : Ledger Api Answer} (h : Idle l) : Quiet φ 0 l.log := by
  simp [show l.log = [] from h, Quiet]

/-- Nor did anything come out of order. -/
theorem Idle.ordered {l : Ledger Api Answer} (h : Idle l) : Ordered l.log := by
  simp [show l.log = [] from h, Ordered]

/-- The exit code tells whether what was asked for was done. -/
theorem main_done (o : Options) : Triple Idle (main o) fun code l => code = 0 ↔ o.Done l.log := by
  have hquiet : ∀ {l : Ledger Api Answer}, Quiet deleted 0 l.log →
      ((-1 : Int) = 0 ↔ Ends deleted 0 l.log) :=
    fun hl => by simpa using hl.not_ends
  unfold main Options.Done
  cases hinit : o.init with
  | false => exact triple_pure fun l hl => by simp
  | true =>
    cases hhelp : o.help with
    | true => exact triple_pure fun l hl => by simp
    | false =>
      simp only [Bool.not_true, Bool.false_eq_true, if_false, true_and, false_or]
      cases hinstall : o.install with
      | true =>
        simp only [if_true]
        split_ifs
        · exact triple_pure fun l hl => by simpa using hl.not_hit
        · refine (loadNTDriver_hit.pre fun l hl => hl.not_hit).bind fun ok => ?_
          cases ok with
          | false => exact triple_pure fun l hl => by simpa using hl
          | true => exact triple_pure fun l hl => by simpa using hl
      | false =>
        simp only [Bool.false_eq_true, if_false]
        cases huninstall : o.uninstall with
        | false => exact triple_pure fun l hl => by simp
        | true =>
          simp only [if_true, true_and]
          split_ifs
          · exact triple_pure fun l hl => hquiet hl.quiet
          · refine ((stopSvr_quiet _).pre fun l hl => hl.quiet).bind fun ok => ?_
            cases ok with
            | false => exact triple_pure fun l hl => hquiet hl
            | true =>
              refine delSvr_tells.bind fun ok => ?_
              cases ok with
              | false => exact triple_pure fun l hl => by simpa using hl
              | true => exact triple_pure fun l hl => by simpa using hl

/-- A service is deleted only after it was reported to have stopped. -/
theorem main_ordered (o : Options) : Triple Idle (main o) fun _ l => Ordered l.log := by
  have hexit : ∀ code : Int, Triple Idle (pure code : Calls Int) fun _ l => Ordered l.log :=
    fun _ => triple_pure fun l hl => hl.ordered
  unfold main
  split_ifs
  · exact hexit _
  · exact hexit _
  · exact hexit _
  · refine (loadNTDriver_ordered.pre fun l hl => hl.ordered).bind fun ok => ?_
    split_ifs <;> exact triple_pure fun _ h => h
  · exact hexit _
  · refine ((stopSvr_ordered _).and (stopSvr_tells _)).pre (fun l hl => ⟨hl.ordered, trivial⟩)
      |>.bind fun ok => ?_
    cases ok with
    | false => exact triple_pure fun _ h => h.1
    | true =>
      refine Triple.bind (delSvr_ordered.pre fun l hl => ⟨hl.1, hl.2 rfl⟩) fun ok => ?_
      cases ok with
      | false => exact triple_pure fun l hl => hl.1
      | true => exact triple_pure fun l hl => hl.1
  · exact hexit _

/-- Whatever the system answers: the installer closes each handle it opened once, its exit code is 0
if a driver was started or a service was deleted in the end, and it never deletes a service that was
not reported to have stopped. -/
theorem main_settles (o : Options) {as as' : List Answer} {code : Int} {l : Ledger Api Answer}
    (h : main o Ledger.empty as = some ((code, l), as')) :
    l.live = [] ∧ l.strays = [] ∧ (code = 0 ↔ o.Done l.log) ∧ Ordered l.log := by
  have hopen := main_open (L := []) (o := o) Ledger.empty as code l as' ⟨rfl, rfl, rfl⟩ h
  exact ⟨hopen.live, hopen.strays, main_done o Ledger.empty as code l as' rfl h,
    main_ordered o Ledger.empty as code l as' rfl h⟩

/-- The uninstallation of a service that takes its time. -/
def slowly : List Answer :=
  [granted, granted, granted, granted, { granted with currentState := 3 }, granted, granted,
    { granted with currentState := 3 }, { granted with tick := 5000 }, { granted with currentState := 1 },
    granted, granted, granted, granted]

/-- The service is stopped in the second round, and deleted. -/
theorem main_settles_slowly :
    ∃ code l as', main ⟨true, false, false, true, false, true⟩ Ledger.empty slowly =
      some ((code, l), as') ∧ code = 0 ∧ l.live = [] ∧ Ends deleted 0 l.log := by
  have hend : (main ⟨true, false, false, true, false, true⟩ Ledger.empty slowly).map (fun r => r.1.1) =
      some 0 := by decide +kernel
  obtain ⟨⟨⟨code, l⟩, as'⟩, hmain, rfl⟩ := Option.map_eq_some_iff.mp hend
  obtain ⟨hlive, -, hdone, -⟩ := main_settles _ hmain
  exact ⟨0, l, as', hmain, rfl, hlive, by simpa [Options.Done] using hdone.mp rfl⟩

end Results

end KernelLib.InstallDriver
