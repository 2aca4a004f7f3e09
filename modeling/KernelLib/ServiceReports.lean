import KernelLib.StepRuns

/-!
# What a service reports

A service runs in three parts: the thread in `run` that dispatches controls,
the thread of `ServiceMain`, and the handler of controls. The manager is told
that the service runs, or that it stopped, by either of the last two; when it
was told that the service stopped the dispatcher returns, and the process
ends with the threads in it. A stop control is only reported: nothing tells
the application.
-/

namespace KernelLib.ServiceReports

open StepRuns

/-- `SERVICE_WIN32_OWN_PROCESS`. -/
def win32OwnProcess : ℕ := 0x10

/-- `SERVICE_STOPPED`. -/
def serviceStopped : ℕ := 1

/-- `SERVICE_START_PENDING`. -/
def serviceStartPending : ℕ := 2

/-- `SERVICE_RUNNING`. -/
def serviceRunning : ℕ := 4

/-- `SERVICE_ACCEPT_STOP | SERVICE_ACCEPT_SHUTDOWN`. -/
def acceptStopShutdown : ℕ := 1 ||| 4

/-- `SERVICE_CONTROL_STOP`. -/
def controlStop : ℕ := 1

/-- `ERROR_SERVICE_SPECIFIC_ERROR`. -/
def serviceSpecificError : ℕ := 1066

/-- `SERVICE_STATUS`. -/
structure Status where
  /-- `dwServiceType`. -/
  serviceType : ℕ
  /-- `dwCurrentState`. -/
  currentState : ℕ
  /-- `dwControlsAccepted`. -/
  controlsAccepted : ℕ
  /-- `dwWin32ExitCode`. -/
  win32ExitCode : ℕ
  /-- `dwServiceSpecificExitCode`. -/
  serviceSpecificExitCode : ℕ
  /-- `dwCheckPoint`. -/
  checkPoint : ℕ
  /-- `dwWaitHint`. -/
  waitHint : ℕ
  deriving DecidableEq, Repr

/-- The status that `UpdateServiceStatus` makes of its arguments. -/
def serviceStatus (currentState win32 specific checkPoint waitHint : ℕ) : Status where
  serviceType := win32OwnProcess
  currentState := currentState
  controlsAccepted := if currentState = serviceStartPending then 0 else acceptStopShutdown
  win32ExitCode := if specific = 0 then win32 else serviceSpecificError
  serviceSpecificExitCode := specific
  checkPoint := checkPoint
  waitHint := waitHint

/-- The status of a service that runs. -/
def running : Status := serviceStatus serviceRunning 0 0 0 0

/-- The status of a service that stopped. -/
def stopped : Status := serviceStatus serviceStopped 0 0 0 0

/-- A member of the application that was called. -/
inductive Member (A : Type) where
  /-- `cml` with the arguments. -/
  | cml (args : List A)
  /-- `beforeRunning`. -/
  | beforeRunning
  /-- `execute`. -/
  | execute
  deriving DecidableEq, Repr

/-- Where the thread of `run` is. -/
inductive Dispatcher where
  /-- It calls `StartServiceCtrlDispatcher`. -/
  | connecting
  /-- It dispatches controls. -/
  | dispatching
  /-- `run` has returned, and with it the process. -/
  | returned (success : Bool)
  deriving DecidableEq, Repr

/-- Where the thread of `ServiceMain` is. -/
inductive Main where
  /-- It is not started. -/
  | none
  /-- It calls `RegisterServiceCtrlHandler`. -/
  | registering
  /-- It stores the handle. -/
  | storing
  /-- It looks whether there are arguments. -/
  | arguments
  /-- It calls `beforeRunning`. -/
  | asking
  /-- It reports that the service runs. -/
  | reporting
  /-- It calls `execute`. -/
  | calling
  /-- It is in `execute`. -/
  | executing
  /-- It reports that the service stopped. -/
  | stopping
  /-- It is about to return. -/
  | leaving
  /-- It has returned. -/
  | returned
  deriving DecidableEq, Repr

/-- A service process. -/
structure Sys (A : Type) where
  /-- The thread of `run`. -/
  dispatcher : Dispatcher
  /-- The thread of `ServiceMain`. -/
  main : Main
  /-- The handler is registered. -/
  registered : Bool
  /-- `_hSerivceStatusHandle` is not null. -/
  handle : Bool
  /-- The calls of `SetServiceStatus`. -/
  reports : List Status
  /-- The members of the application that were called. -/
  calls : List (Member A)
  deriving DecidableEq, Repr

/-- A step of the process. -/
inductive Act where
  /-- The dispatcher connects to the manager, or cannot. -/
  | connect (ok : Bool)
  /-- The manager starts `ServiceMain`. -/
  | start
  /-- `ServiceMain` goes on; the flag is what the call returns that it makes, if it matters. -/
  | main (ok : Bool)
  /-- The manager sends a control. -/
  | control (code : ℕ)
  /-- The dispatcher returns. -/
  | leave
  deriving DecidableEq, Repr

section Source

variable {A : Type}

/-- `run` was called. -/
def Sys.init : Sys A := ⟨.connecting, .none, false, false, [], []⟩

/-- `UpdateServiceStatus`, once the status is made. -/
def Sys.updateServiceStatus (r : Status) (s : Sys A) : Sys A :=
  if s.handle then { s with reports := s.reports ++ [r] } else s

/-- Call a member of the application. -/
def Sys.call (c : Member A) (s : Sys A) : Sys A := { s with calls := s.calls ++ [c] }

/-- The next step of `ServiceMain`. -/
def Sys.serviceMain (args : List A) (ok : Bool) (s : Sys A) : Option (Sys A) :=
  match s.main with
  | .registering =>
    if ok then some { s with registered := true, main := .storing }
    else some { s with main := .returned }
  | .storing => some { s with handle := true, main := .arguments }
  | .arguments =>
    some { (if args = [] then s else s.call (.cml args)) with main := .asking }
  | .asking =>
    some { s.call .beforeRunning with main := if ok then .reporting else .stopping }
  | .reporting => some { s.updateServiceStatus running with main := .calling }
  | .calling => some { s.call .execute with main := .executing }
  | .executing => some { s with main := .stopping }
  | .stopping => some { s.updateServiceStatus stopped with main := .leaving }
  | .leaving => some { s with main := .returned }
  | .none | .returned => none

/-- `ServiceCtrlHandler`. -/
def Sys.serviceCtrlHandler (nControlCode : ℕ) (s : Sys A) : Sys A :=
  if nControlCode = controlStop then s.updateServiceStatus stopped else s

/-- Take a step. With the dispatcher the process ends. -/
def step (args : List A) (s : Sys A) (a : Act) : Option (Sys A) :=
  match s.dispatcher, a with
  | .connecting, .connect ok =>
    some { s with dispatcher := if ok then .dispatching else .returned false }
  | .dispatching, .start => if s.main = .none then some { s with main := .registering } else none
  | .dispatching, .main ok => s.serviceMain args ok
  | .dispatching, .control code => if s.registered then some (s.serviceCtrlHandler code) else none
  | .dispatching, .leave =>
    if s.reports.getLast? = some stopped then some { s with dispatcher := .returned true } else none
  | _, _ => none

end Source

section Runs

variable {A : Type} {args : List A} {s t : Sys A} {a : Act} {as : List Act} {n : ℕ} {ok : Bool}

/-- What a step can be. -/
theorem step_cases (h : step args s a = some t) :
    (∃ ok, a = .connect ok ∧ s.dispatcher = .connecting ∧
      t = { s with dispatcher := if ok then .dispatching else .returned false }) ∨
    (a = .start ∧ s.dispatcher = .dispatching ∧ s.main = .none ∧
      t = { s with main := .registering }) ∨
    (∃ ok, a = .main ok ∧ s.dispatcher = .dispatching ∧ s.serviceMain args ok = some t) ∨
    (∃ code, a = .control code ∧ s.dispatcher = .dispatching ∧ s.registered = true ∧
      t = s.serviceCtrlHandler code) ∨
    (a = .leave ∧ s.dispatcher = .dispatching ∧ s.reports.getLast? = some stopped ∧
      t = { s with dispatcher := .returned true }) := by
  cases hd : s.dispatcher with
  | connecting =>
    cases a with
    | connect ok =>
      simp only [step, hd, Option.some.injEq] at h
      exact .inl ⟨ok, rfl, rfl, h.symm⟩
    | start | main _ | control _ | leave => simp [step, hd] at h
  | dispatching =>
    cases a with
    | connect _ => simp [step, hd] at h
    | start =>
      simp only [step, hd, Option.ite_none_right_eq_some, Option.some.injEq] at h
      exact .inr (.inl ⟨rfl, rfl, h.1, h.2.symm⟩)
    | main ok =>
      simp only [step, hd] at h
      exact .inr (.inr (.inl ⟨ok, rfl, rfl, h⟩))
    | control code =>
      simp only [step, hd, Option.ite_none_right_eq_some, Option.some.injEq] at h
      exact .inr (.inr (.inr (.inl ⟨code, rfl, rfl, h.1, h.2.symm⟩)))
    | leave =>
      simp only [step, hd, Option.ite_none_right_eq_some, Option.some.injEq] at h
      exact .inr (.inr (.inr (.inr ⟨rfl, rfl, h.1, h.2.symm⟩)))
  | returned b => simp [step, hd] at h

/-- The members called before the application is asked whether it runs. -/
def preamble (args : List A) : List (Member A) := if args = [] then [] else [.cml args]

/-- The members called when it does not want to run. -/
def refused (args : List A) : List (Member A) := preamble args ++ [.beforeRunning]

/-- All members. -/
def served (args : List A) : List (Member A) := refused args ++ [.execute]

/-- The manager was told so often that the service runs, and else that it stopped. -/
def Told (n : ℕ) (s : Sys A) : Prop :=
  (∀ r ∈ s.reports, r = running ∨ r = stopped) ∧ s.reports.count running = n

/-- What was called and reported where `ServiceMain` is. -/
def Progress (args : List A) (s : Sys A) : Prop :=
  match s.main with
  | .none | .registering =>
    s.registered = false ∧ s.handle = false ∧ s.calls = [] ∧ s.reports = []
  | .storing => s.handle = false ∧ s.calls = [] ∧ s.reports = []
  | .arguments => s.handle = true ∧ s.calls = [] ∧ Told 0 s
  | .asking => s.handle = true ∧ s.calls = preamble args ∧ Told 0 s
  | .reporting => s.handle = true ∧ s.calls = refused args ∧ Told 0 s
  | .calling => s.handle = true ∧ s.calls = refused args ∧ Told 1 s
  | .executing => s.handle = true ∧ s.calls = served args ∧ Told 1 s
  | .stopping => s.handle = true ∧
      (s.calls = refused args ∧ Told 0 s ∨ s.calls = served args ∧ Told 1 s)
  | .leaving => s.handle = true ∧ s.reports.getLast? = some stopped ∧
      (s.calls = refused args ∧ Told 0 s ∨ s.calls = served args ∧ Told 1 s)
  | .returned =>
    (s.registered = false ∧ s.handle = false ∧ s.calls = [] ∧ s.reports = []) ∨
      (s.handle = true ∧ s.reports.getLast? = some stopped ∧
        (s.calls = refused args ∧ Told 0 s ∨ s.calls = served args ∧ Told 1 s))

/-- The two states are told apart. -/
theorem running_ne : running ≠ stopped := by decide

/-- Reporting that the service runs counts once more. -/
theorem Told.running (h : Told n s) :
    Told (n + 1) { s with reports := s.reports ++ [running] } := by
  obtain ⟨hall, hcount⟩ := h
  refine ⟨fun r hr => ?_, by simp [hcount]⟩
  rcases List.mem_append.mp hr with hr | hr
  · exact hall r hr
  · exact .inl (List.mem_singleton.mp hr)

/-- Reporting that it stopped does not. -/
theorem Told.stopped (h : Told n s) :
    Told n { s with reports := s.reports ++ [ServiceReports.stopped] } := by
  obtain ⟨hall, hcount⟩ := h
  refine ⟨fun r hr => ?_, by simp [hcount, running_ne.symm]⟩
  rcases List.mem_append.mp hr with hr | hr
  · exact hall r hr
  · exact .inr (List.mem_singleton.mp hr)

/-- With a handle the status is reported. -/
theorem updateServiceStatus_eq (r : Status) (h : s.handle = true) :
    s.updateServiceStatus r = { s with reports := s.reports ++ [r] } := if_pos h

/-- `ServiceMain` makes progress. -/
theorem serviceMain_progress (h : Progress args s) (ht : s.serviceMain args ok = some t) :
    Progress args t := by
  unfold Sys.serviceMain at ht
  unfold Progress at h
  cases hm : s.main with
  | none | returned => simp [hm] at ht
  | registering =>
    simp only [hm] at h ht
    obtain ⟨hreg, hhandle, hcalls, hreports⟩ := h
    split_ifs at ht
    · obtain rfl := Option.some.inj ht
      exact ⟨hhandle, hcalls, hreports⟩
    · obtain rfl := Option.some.inj ht
      exact .inl ⟨hreg, hhandle, hcalls, hreports⟩
  | storing =>
    simp only [hm] at h ht
    obtain ⟨-, hcalls, hreports⟩ := h
    obtain rfl := Option.some.inj ht
    exact ⟨rfl, hcalls, by simp [hreports], by simp [hreports]⟩
  | arguments =>
    simp only [hm] at h ht
    obtain ⟨hhandle, hcalls, htold⟩ := h
    obtain rfl := Option.some.inj ht
    split_ifs with hargs
    · exact ⟨hhandle, by simp [hcalls, preamble, hargs], htold⟩
    · exact ⟨hhandle, by simp [Sys.call, hcalls, preamble, hargs], htold⟩
  | asking =>
    simp only [hm] at h ht
    obtain ⟨hhandle, hcalls, htold⟩ := h
    obtain rfl := Option.some.inj ht
    have hrefused : (s.call .beforeRunning).calls = refused args := by
      rw [refused, ← hcalls]
      rfl
    cases ok with
    | true => exact ⟨hhandle, hrefused, htold⟩
    | false => exact ⟨hhandle, .inl ⟨hrefused, htold⟩⟩
  | reporting =>
    simp only [hm] at h ht
    obtain ⟨hhandle, hcalls, htold⟩ := h
    obtain rfl := Option.some.inj ht
    rw [updateServiceStatus_eq running hhandle]
    exact ⟨hhandle, hcalls, htold.running⟩
  | calling =>
    simp only [hm] at h ht
    obtain ⟨hhandle, hcalls, htold⟩ := h
    obtain rfl := Option.some.inj ht
    refine ⟨hhandle, ?_, htold⟩
    rw [served, ← hcalls]
    rfl
  | executing =>
    simp only [hm] at h ht
    obtain ⟨hhandle, hcalls, htold⟩ := h
    obtain rfl := Option.some.inj ht
    exact ⟨hhandle, .inr ⟨hcalls, htold⟩⟩
  | stopping =>
    simp only [hm] at h ht
    obtain ⟨hhandle, hdone⟩ := h
    obtain rfl := Option.some.inj ht
    rw [updateServiceStatus_eq stopped hhandle]
    exact ⟨hhandle, by simp, hdone.imp (.imp id Told.stopped) (.imp id Told.stopped)⟩
  | leaving =>
    simp only [hm] at h ht
    obtain rfl := Option.some.inj ht
    exact .inr h

/-- A control makes none, and it is told that the service stopped if there is a handle. -/
theorem serviceCtrlHandler_progress (h : Progress args s) (hreg : s.registered = true) (code : ℕ) :
    Progress args (s.serviceCtrlHandler code) := by
  unfold Sys.serviceCtrlHandler
  split_ifs
  · by_cases hhandle : s.handle = true
    · rw [updateServiceStatus_eq stopped hhandle]
      unfold Progress at h ⊢
      cases hm : s.main with
      | none | registering | storing => simp [hm, hhandle] at h
      | arguments | asking | reporting | calling | executing =>
        simp only [hm] at h ⊢
        exact ⟨h.1, h.2.1, h.2.2.stopped⟩
      | stopping =>
        simp only [hm] at h ⊢
        exact ⟨h.1, h.2.imp (.imp id Told.stopped) (.imp id Told.stopped)⟩
      | leaving =>
        simp only [hm] at h ⊢
        exact ⟨h.1, by simp, h.2.2.imp (.imp id Told.stopped) (.imp id Told.stopped)⟩
      | returned =>
        simp only [hm] at h ⊢
        obtain ⟨hnot, -⟩ | ⟨-, -, hdone⟩ := h
        · exact absurd hreg (by simp [hnot])
        · exact .inr ⟨hhandle, by simp, hdone.imp (.imp id Told.stopped) (.imp id Told.stopped)⟩
    · rwa [Sys.updateServiceStatus, if_neg hhandle]
  · exact h

/-- Every step makes progress, or leaves it. -/
theorem step_progress (h : Progress args s) (ht : step args s a = some t) : Progress args t := by
  obtain ⟨ok, -, -, rfl⟩ | ⟨-, -, hm, rfl⟩ | ⟨ok, -, -, hs⟩ | ⟨code, -, -, hreg, rfl⟩ |
    ⟨-, -, -, rfl⟩ := step_cases ht
  · exact h
  · unfold Progress at h
    rw [hm] at h
    exact h
  · exact serviceMain_progress h hs
  · exact serviceCtrlHandler_progress h hreg code
  · exact h

/-- Before the first step. -/
theorem progress_init : Progress args (Sys.init : Sys A) := ⟨rfl, rfl, rfl, rfl⟩

/-- What a maintainer can rely on in every state. -/
structure Orderly (args : List A) (s : Sys A) : Prop where
  /-- The members are called in order, `cml` with the arguments. -/
  order : s.calls <+: served args
  /-- Nothing is reported without a handle. -/
  silent : s.handle = false → s.reports = []
  /-- Two states are reported. -/
  told : ∀ r ∈ s.reports, r = running ∨ r = stopped
  /-- One of them once. -/
  once : s.reports.count running ≤ 1
  /-- A service that is executed was reported to run. -/
  announced : .execute ∈ s.calls → running ∈ s.reports
  /-- It was asked whether it wants to. -/
  asked : running ∈ s.reports → .beforeRunning ∈ s.calls
  /-- `ServiceMain` leaves a service that stopped, or did nothing as it could not be registered. -/
  ended : s.main = .returned →
    (s.registered = false ∧ s.calls = [] ∧ s.reports = []) ∨ s.reports.getLast? = some stopped
  /-- The dispatcher returns when the manager was told last that the service stopped. -/
  left : s.dispatcher = .returned true → s.reports.getLast? = some stopped

/-- A service that does not want to run is not executed. -/
theorem execute_not_mem_refused (args : List A) : .execute ∉ refused args := by
  unfold refused preamble
  split_ifs <;> simp

/-- Up to the question both do the same. -/
theorem refused_initial (args : List A) : refused args <+: served args := List.prefix_append ..

/-- Where there is progress, the calls and reports are in order. -/
theorem Progress.orderly (h : Progress args s)
    (hl : s.dispatcher = .returned true → s.reports.getLast? = some stopped) : Orderly args s := by
  have hasks : .beforeRunning ∈ refused args := by simp [refused]
  have hnothing : (s.main = .returned → s.registered = false) → s.calls = [] → s.reports = [] →
      Orderly args s := fun hreg hcalls hreports =>
    ⟨by simp [hcalls], fun _ => hreports, by simp [hreports], by simp [hreports],
      by simp [hcalls], by simp [hreports], fun he => .inl ⟨hreg he, hcalls, hreports⟩, hl⟩
  have hearly : s.main ≠ .returned → s.handle = true → s.calls <+: refused args → Told 0 s →
      Orderly args s := fun hm hhandle hcalls htold =>
    ⟨hcalls.trans (refused_initial args), fun hf => by simp [hf] at hhandle, htold.1,
      by rw [htold.2]; exact Nat.zero_le 1,
      fun he => absurd (hcalls.subset he) (execute_not_mem_refused args),
      fun hr => absurd hr (List.count_eq_zero.mp htold.2), fun he => absurd he hm, hl⟩
  have hlate : (s.main = .returned → s.reports.getLast? = some stopped) → s.handle = true →
      (s.calls = refused args ∧ Told 0 s) ∨
        ((s.calls = refused args ∨ s.calls = served args) ∧ Told 1 s) →
      Orderly args s := by
    intro hend hhandle hdone
    have hhas : s.calls = refused args ∨ s.calls = served args := hdone.elim (.inl ·.1) (·.1)
    refine ⟨?_, fun hf => by simp [hf] at hhandle, ?_, ?_, fun he => ?_, fun _ => ?_,
      fun he => .inr (hend he), hl⟩
    · obtain h | h := hhas
      · exact h ▸ refused_initial args
      · exact h ▸ List.prefix_refl _
    · exact hdone.elim (·.2.1) (·.2.1)
    · obtain ⟨-, -, hcount⟩ | ⟨-, -, hcount⟩ := hdone <;> omega
    · obtain ⟨hcalls, -⟩ | ⟨-, -, hcount⟩ := hdone
      · exact absurd (hcalls ▸ he) (execute_not_mem_refused args)
      · exact List.count_pos_iff.mp (by omega)
    · rcases hhas with h | h <;> rw [h]
      · exact hasks
      · exact (refused_initial args).subset hasks
  unfold Progress at h
  cases hm : s.main with
  | none | registering =>
    simp only [hm] at h
    exact hnothing (fun _ => h.1) h.2.2.1 h.2.2.2
  | storing =>
    simp only [hm] at h
    exact hnothing (by simp [hm]) h.2.1 h.2.2
  | arguments =>
    simp only [hm] at h
    exact hearly (by simp [hm]) h.1 (by simp [h.2.1]) h.2.2
  | asking =>
    simp only [hm] at h
    exact hearly (by simp [hm]) h.1 (h.2.1 ▸ List.prefix_append ..) h.2.2
  | reporting =>
    simp only [hm] at h
    exact hearly (by simp [hm]) h.1 (h.2.1 ▸ List.prefix_refl _) h.2.2
  | calling =>
    simp only [hm] at h
    exact hlate (by simp [hm]) h.1 (.inr ⟨.inl h.2.1, h.2.2⟩)
  | executing =>
    simp only [hm] at h
    exact hlate (by simp [hm]) h.1 (.inr ⟨.inr h.2.1, h.2.2⟩)
  | stopping =>
    simp only [hm] at h
    exact hlate (by simp [hm]) h.1 (h.2.imp id (.imp .inr id))
  | leaving =>
    simp only [hm] at h
    exact hlate (by simp [hm]) h.1 (h.2.2.imp id (.imp .inr id))
  | returned =>
    simp only [hm] at h
    obtain ⟨hreg, -, hcalls, hreports⟩ | ⟨hhandle, hlast, hdone⟩ := h
    · exact hnothing (fun _ => hreg) hcalls hreports
    · exact hlate (fun _ => hlast) hhandle (hdone.imp id (.imp .inr id))

/-- What is reported where `ServiceMain` is, when no stop control came. -/
def Undisturbed (args : List A) (s : Sys A) : Prop :=
  match s.main with
  | .none | .registering | .storing | .arguments | .asking | .reporting => s.reports = []
  | .calling | .executing => s.reports = [running]
  | .stopping =>
    (s.calls = refused args ∧ s.reports = []) ∨ (s.calls = served args ∧ s.reports = [running])
  | .leaving => (s.calls = refused args ∧ s.reports = [stopped]) ∨
      (s.calls = served args ∧ s.reports = [running, stopped])
  | .returned => s.reports = [] ∨ (s.calls = refused args ∧ s.reports = [stopped]) ∨
      (s.calls = served args ∧ s.reports = [running, stopped])

/-- Without a stop control `ServiceMain` alone reports. -/
theorem serviceMain_undisturbed (h : Progress args s) (hu : Undisturbed args s)
    (ht : s.serviceMain args ok = some t) : Undisturbed args t := by
  unfold Sys.serviceMain at ht
  unfold Progress at h
  unfold Undisturbed at hu
  cases hm : s.main with
  | none | returned => simp [hm] at ht
  | registering =>
    simp only [hm] at hu ht
    split_ifs at ht
    · obtain rfl := Option.some.inj ht
      exact hu
    · obtain rfl := Option.some.inj ht
      exact .inl hu
  | storing =>
    simp only [hm] at hu ht
    obtain rfl := Option.some.inj ht
    exact hu
  | arguments =>
    simp only [hm] at hu ht
    obtain rfl := Option.some.inj ht
    split_ifs <;> exact hu
  | asking =>
    simp only [hm] at h hu ht
    obtain rfl := Option.some.inj ht
    cases ok with
    | true => exact hu
    | false =>
      refine .inl ⟨?_, hu⟩
      rw [refused, ← h.2.1]
      rfl
  | reporting =>
    simp only [hm] at h hu ht
    obtain rfl := Option.some.inj ht
    rw [updateServiceStatus_eq running h.1, hu]
    rfl
  | calling =>
    simp only [hm] at hu ht
    obtain rfl := Option.some.inj ht
    exact hu
  | executing =>
    simp only [hm] at h hu ht
    obtain rfl := Option.some.inj ht
    exact .inr ⟨h.2.1, hu⟩
  | stopping =>
    simp only [hm] at h hu ht
    obtain rfl := Option.some.inj ht
    rw [updateServiceStatus_eq stopped h.1]
    obtain ⟨hcalls, hreports⟩ | ⟨hcalls, hreports⟩ := hu
    · exact .inl ⟨hcalls, by simp [hreports]⟩
    · exact .inr ⟨hcalls, by simp [hreports]⟩
  | leaving =>
    simp only [hm] at hu ht
    obtain rfl := Option.some.inj ht
    exact .inr hu

/-- So it is in every step that is no such control. -/
theorem step_undisturbed (h : Progress args s) (hu : Undisturbed args s)
    (ha : a ≠ .control controlStop) (ht : step args s a = some t) : Undisturbed args t := by
  obtain ⟨ok, -, -, rfl⟩ | ⟨-, -, hm, rfl⟩ | ⟨ok, -, -, hs⟩ | ⟨code, rfl, -, -, rfl⟩ |
    ⟨-, -, -, rfl⟩ := step_cases ht
  · exact hu
  · unfold Undisturbed at hu
    rw [hm] at hu
    exact hu
  · exact serviceMain_undisturbed h hu hs
  · have hcode : code ≠ controlStop := fun he => ha (he ▸ rfl)
    rwa [Sys.serviceCtrlHandler, if_neg hcode]
  · exact hu

/-- A report does not move the dispatcher. -/
theorem updateServiceStatus_dispatcher (r : Status) (s : Sys A) :
    (s.updateServiceStatus r).dispatcher = s.dispatcher := by
  unfold Sys.updateServiceStatus
  split_ifs <;> rfl

/-- Nor does `ServiceMain`. -/
theorem serviceMain_dispatcher (ht : s.serviceMain args ok = some t) :
    t.dispatcher = s.dispatcher := by
  unfold Sys.serviceMain at ht
  cases hm : s.main with
  | none | returned => simp [hm] at ht
  | registering =>
    simp only [hm] at ht
    split_ifs at ht <;> obtain rfl := Option.some.inj ht <;> rfl
  | arguments =>
    simp only [hm] at ht
    obtain rfl := Option.some.inj ht
    split_ifs <;> rfl
  | storing | asking | calling | executing | leaving =>
    simp only [hm] at ht
    obtain rfl := Option.some.inj ht
    rfl
  | reporting | stopping =>
    simp only [hm] at ht
    obtain rfl := Option.some.inj ht
    exact updateServiceStatus_dispatcher _ s

/-- When the dispatcher returned, the manager was told that the service stopped. -/
theorem step_left (ht : step args s a = some t) :
    t.dispatcher = .returned true → t.reports.getLast? = some stopped := by
  intro hleft
  obtain ⟨ok, -, -, rfl⟩ | ⟨-, hd, -, rfl⟩ | ⟨ok, -, hd, hs⟩ | ⟨code, -, hd, -, rfl⟩ |
    ⟨-, -, hlast, rfl⟩ := step_cases ht
  · cases ok <;> simp at hleft
  · exact absurd (hd.symm.trans hleft) (by simp)
  · exact absurd (((serviceMain_dispatcher hs).trans hd).symm.trans hleft) (by simp)
  · have hsame : (s.serviceCtrlHandler code).dispatcher = s.dispatcher := by
      unfold Sys.serviceCtrlHandler
      split_ifs
      · exact updateServiceStatus_dispatcher stopped s
      · rfl
    exact absurd ((hsame.trans hd).symm.trans hleft) (by simp)
  · exact hlast

/-- In every run of a service its members are called in order and what is reported is in order.
Without a stop control `run` does not return `true` before `ServiceMain` has made its last report. -/
theorem service_in_order (h : run (step args) Sys.init as = some s) :
    Orderly args s ∧ ((∀ a ∈ as, a ≠ .control controlStop) → s.dispatcher = .returned true →
      (s.main = .leaving ∨ s.main = .returned) ∧
        ((s.calls = refused args ∧ s.reports = [stopped]) ∨
          (s.calls = served args ∧ s.reports = [running, stopped]))) := by
  obtain ⟨hprogress, hleft⟩ : Progress args s ∧
      (s.dispatcher = .returned true → s.reports.getLast? = some stopped) :=
    run_invariant (I := fun s => Progress args s ∧
        (s.dispatcher = .returned true → s.reports.getLast? = some stopped))
      (fun s a t hs ht => ⟨step_progress hs.1 ht, step_left ht⟩)
      ⟨progress_init, fun he => nomatch he⟩ h
  refine ⟨hprogress.orderly hleft, fun hno hret => ?_⟩
  obtain ⟨-, hu⟩ : Progress args s ∧ Undisturbed args s :=
    along_invariant (I := fun s => Progress args s ∧ Undisturbed args s)
      (P := fun _ a => a ≠ .control controlStop)
      (fun s a t hs ha ht => ⟨step_progress hs.1 ht, step_undisturbed hs.1 hs.2 ha ht⟩)
      ⟨progress_init, rfl⟩ (along_of_forall hno) h
  have hlast := hleft hret
  unfold Undisturbed at hu
  cases hm : s.main with
  | none | registering | storing | arguments | asking | reporting | calling | executing =>
    simp only [hm] at hu
    rw [hu] at hlast
    exact absurd hlast (by decide)
  | stopping =>
    simp only [hm] at hu
    obtain ⟨-, hreports⟩ | ⟨-, hreports⟩ := hu <;> rw [hreports] at hlast <;>
      exact absurd hlast (by decide)
  | leaving =>
    simp only [hm] at hu
    exact ⟨.inl rfl, hu⟩
  | returned =>
    simp only [hm] at hu
    obtain hnone | hdone := hu
    · rw [hnone] at hlast
      exact absurd hlast (by decide)
    · exact ⟨.inr rfl, hdone⟩

end Runs

/-- A service that wants to run, without arguments, and does not get to return. -/
def serving : List Act :=
  [.connect true, .start, .main true, .main true, .main true, .main true, .main true, .main true,
    .main true, .main true, .leave]

/-- The dispatcher returns between the last report and the return of `ServiceMain`. -/
theorem service_in_order_serving :
    ∃ s : Sys ℕ, run (step []) Sys.init serving = some s ∧
      ((s.main = .leaving ∨ s.main = .returned) ∧
        ((s.calls = refused [] ∧ s.reports = [stopped]) ∨
          (s.calls = served [] ∧ s.reports = [running, stopped]))) ∧ Orderly [] s := by
  have hrun : run (step ([] : List ℕ)) Sys.init serving = some
      ⟨.returned true, .leaving, true, true, [running, stopped], [.beforeRunning, .execute]⟩ := rfl
  have h := service_in_order hrun
  exact ⟨_, hrun, h.2 (by decide) rfl, h.1⟩

/-- A stop that comes early is reported before the service is reported to run, and nothing tells
the application. -/
example : (run (step ([] : List ℕ)) Sys.init [.connect true, .start, .main true, .main true,
    .control controlStop, .main true, .main true, .main true, .main true]).map
      (fun s => (s.main, s.reports)) = some (.executing, [stopped, running]) := rfl

end KernelLib.ServiceReports
