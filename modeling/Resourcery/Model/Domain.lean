import Resourcery.Model.Registry

/-!
# `Domain` (`domain.rs`)

Registration with the supervisor, the end of a supervised task, and the three levels of shutdown.
-/

namespace Resourcery

variable {R K E α : Type}

namespace Domain

/-! ## `register` and `task_finished` -/

/-- The points of `Domain::register`. -/
inductive RegisterPc
  | accepting
  | lock
  | acceptingLocked
  | activate
  | insert
  | dropSupervisor (id : Option ℕ)
deriving DecidableEq

/-- `Domain::register`. -/
def register (g : GenId) (goto : RegisterPc → α) (ret : Option ℕ → α) :
    RegisterPc → Instr R K E α
  | .accepting => .isAccepting fun b => if b then goto .lock else ret none
  | .lock => .lockSupervisor (goto .acceptingLocked)
  | .acceptingLocked => .isAccepting fun b =>
    if b then goto .activate else goto (.dropSupervisor none)
  | .activate => .exchangeActive g fun b =>
    if b then goto .insert else goto (.dropSupervisor none)
  | .insert => .insertTask g fun id => goto (.dropSupervisor (some id))
  | .dropSupervisor id => .unlockSupervisor (ret id)

/-- The points of `Domain::task_finished`. -/
inductive FinishedPc
  | lock
  | remove
  | accepting
  | isEmpty
  | storeTerminated
  | dropSupervisor (notify : Bool)
  | notify
deriving DecidableEq

/-- `Domain::task_finished`. -/
def taskFinished (id : ℕ) (goto : FinishedPc → α) (ret : α) : FinishedPc → Instr R K E α
  | .lock => .lockSupervisor (goto .remove)
  | .remove => .removeTask id (goto .accepting)
  | .accepting => .isAccepting fun b => if b then goto (.dropSupervisor false) else goto .isEmpty
  | .isEmpty => .loadTasks fun tasks =>
    if tasks = [] then goto .storeTerminated else goto (.dropSupervisor false)
  | .storeTerminated => .storeTerminated (goto (.dropSupervisor true))
  | .dropSupervisor notify => .unlockSupervisor (if notify then goto .notify else ret)
  | .notify => .notifyWaiters ret

/-! ## `cancel` -/

/-- The points of `Domain::cancel`; the last two are its loop over the controls. -/
inductive CancelPc
  | lock
  | exchange
  | token
  | loadPhase
  | collect
  | storeTerminated
  | notify
  | dropSupervisor (controls : List GenId)
  | next (controls : List GenId)
  | control (g : GenId) (controls : List GenId) (p : Control.CancelPc)
deriving DecidableEq

/-- `Domain::cancel`. The loop takes the controls in any order, as the table yields them. -/
def cancel (goto : CancelPc → α) (ret : α) : CancelPc → Instr R K E α
  | .lock => .lockSupervisor (goto .exchange)
  | .exchange => .exchangeShuttingDown fun b => if b then goto .token else goto .loadPhase
  | .token => .cancelShutdown (goto .loadPhase)
  | .loadPhase => .loadPhase fun ph =>
    if ph = .terminated then goto (.dropSupervisor []) else goto .collect
  | .collect => .loadTasks fun tasks =>
    if tasks = [] then goto .storeTerminated else goto (.dropSupervisor (tasks.map Prod.snd))
  | .storeTerminated => .storeTerminated (goto .notify)
  | .notify => .notifyWaiters (goto (.dropSupervisor []))
  | .dropSupervisor controls => .unlockSupervisor (goto (.next controls))
  | .next controls => .pick controls (fun g rest => goto (.control g rest .load)) ret
  | .control g rest p =>
    Control.cancel g (fun p => goto (.control g rest p)) (goto (.next rest)) p

/-! ## `shutdown` and `terminate` -/

/-- The points of the future of `Domain::shutdown`; `wait` is its only suspension point. -/
inductive ShutdownPc
  | cancel (p : CancelPc)
  | notified
  | loadPhase (seen : ℕ)
  | wait (seen : ℕ)
  | returned
  | dropped
deriving DecidableEq

/-- `Domain::shutdown`. -/
def shutdown (goto : ShutdownPc → α) : ShutdownPc → Instr R K E α
  | .cancel p => cancel (fun p => goto (.cancel p)) (goto .notified) p
  | .notified => .notified fun seen => goto (.loadPhase seen)
  | .loadPhase seen => .loadPhase fun ph =>
    if ph = .terminated then goto .returned else goto (.wait seen)
  | .wait seen => .awaitNotified seen (goto .notified)
  | .returned => .halt
  | .dropped => .halt

/-- The points of the future of `Domain::terminate`. -/
inductive TerminatePc
  | cancel (p : CancelPc)
  | lock
  | collect
  | dropSupervisor (aborts : List GenId)
  | abort (aborts : List GenId)
  | abortOne (g : GenId) (aborts : List GenId)
  | shutdown (p : ShutdownPc)
deriving DecidableEq

/-- `Domain::terminate`. -/
def terminate (goto : TerminatePc → α) : TerminatePc → Instr R K E α
  | .cancel p => cancel (fun p => goto (.cancel p)) (goto .lock) p
  | .lock => .lockSupervisor (goto .collect)
  | .collect => .loadTasks fun tasks => goto (.dropSupervisor (tasks.map Prod.snd))
  | .dropSupervisor aborts => .unlockSupervisor (goto (.abort aborts))
  | .abort aborts =>
    .pick aborts (fun g rest => goto (.abortOne g rest)) (goto (.shutdown (.cancel .lock)))
  | .abortOne g rest => .abort g (goto (.abort rest))
  | .shutdown p => Domain.shutdown (fun p => goto (.shutdown p)) p

end Domain

end Resourcery
