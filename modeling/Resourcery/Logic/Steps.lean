import Resourcery.Logic.Wp

/-!
# Proof rules for steps of the system

An action is a call, a step of a thread, a jump (a future is dropped or unwinds), a step of a
task, or something the holders of references do. `forall_pc_step` and `total_step` turn a claim
about every action into one obligation for each of these five; the obligation for a step of a
thread is a weakest precondition.
-/

namespace Resourcery

open Interleaving Function Transition ResourceContext

variable {R K E : Type}

/-! ## Calls inside calls -/

namespace Pc

theorem code_register (q : Request R K) (site : Option Site) (g : GenId) (p : Domain.RegisterPc) :
    (Pc.acquire q (.create site (.register g p)) : Pc R K E).code =
      Domain.register g (fun p => .acquire q (.create site (.register g p)))
        (fun
          | some id => .acquire q (.create site (.insertLive g id))
          | none => .acquire q (.create site (.abort g))) p := rfl

theorem code_createCancel (q : Request R K) (site : Option Site) (g : GenId)
    (p : Control.CancelPc) :
    (Pc.acquire q (.create site (.cancel g p)) : Pc R K E).code =
      Control.cancel g (fun p => .acquire q (.create site (.cancel g p)))
        (.acquire q (.create site (.dropStart g))) p := rfl

theorem code_dropCancel (g : GenId) (p : Control.CancelPc) :
    (Pc.drop g (.cancel p) : Pc R K E).code =
      Control.cancel g (fun p => .drop g (.cancel p)) (.drop g .fields) p := rfl

theorem code_guardRemove (q : Request R K) (n generation : ℕ) (result : Acquired)
    (p : Registry.RemovePc) :
    (Pc.acquire q (.guard n generation result (.remove p)) : Pc R K E).code =
      Registry.removeIfSame q.ident n generation
        (fun p => .acquire q (.guard n generation result (.remove p)))
        (.acquire q (.returned .panicked)) (.acquire q (.guard n generation result .notify)) p := rfl

theorem code_cleanup (i : Ident R K) (g : GenId) (id : ℕ) (site : Option Site) (x : Site)
    (outcome : ResourceOutcome E) (p : Registry.RemovePc) :
    (Pc.supervise i g id site (.cleanup x outcome p)).code =
      Registry.removeIfSame i x.slot x.generation
        (fun p => .supervise i g id site (.cleanup x outcome p))
        (.supervise i g id site (.publish outcome true))
        (.supervise i g id site (.publish outcome false)) p := rfl

theorem code_finalize (i : Ident R K) (g : GenId) (id : ℕ) (site : Option Site) (exit : Exit)
    (p : Domain.FinishedPc) :
    (Pc.supervise i g id site (.finalize exit p) : Pc R K E).code =
      Domain.taskFinished id (fun p => .supervise i g id site (.finalize exit p))
        (.supervise i g id site (.dropSender exit)) p := rfl

theorem code_terminateCancel (p : Domain.CancelPc) :
    (Pc.terminate (.cancel p) : Pc R K E).code =
      Domain.cancel (fun p => .terminate (.cancel p)) (.terminate .lock) p := rfl

theorem code_terminateShutdown (p : Domain.ShutdownPc) :
    (Pc.terminate (.shutdown p) : Pc R K E).code =
      Domain.shutdown (fun p => .terminate (.shutdown p)) p := rfl

end Pc

/-! ## Jumps -/

/-- `Jump a t p p'`: the action `a` takes thread `t` from `p` to `p'` and leaves the memory as it
is. -/
inductive Jump : Action R K E → Tid → Pc R K E → Pc R K E → Prop
  | listener (t q n seen) : Jump (.dropFuture t) t (.acquire q (.listener n seen))
      (.acquire q (.returned .dropped))
  | build (t q n generation) : Jump (.dropFuture t) t
      (.acquire q (.create (some ⟨n, generation⟩) .build))
      (.acquire q (.guard n generation .dropped (.remove .entry)))
  | buildUnique (t q) : Jump (.dropFuture t) t (.acquire q (.create none .build))
      (.acquire q (.returned .dropped))
  | shutdown (t seen) : Jump (.dropFuture t) t (.shutdown (.wait seen)) (.shutdown .dropped)
  | terminate (t seen) : Jump (.dropFuture t) t (.terminate (.shutdown (.wait seen)))
      (.terminate (.shutdown .dropped))
  | wait (t g seen) : Jump (.dropFuture t) t (.wait g (.changed seen))
      (.wait g (.dropReceiver none))
  | unpolled (t i g id site) : Jump (.dropSupervisor t) t (.supervise i g id site .unpolled)
      (.supervise i g id site (.dropSender .dropped))
  | join (t i g id site) : Jump (.dropSupervisor t) t (.supervise i g id site .join)
      (.supervise i g id site (.finalize .dropped .lock))
  | finish (t i g id site payload) : Jump (.unwind t) t
      (.supervise i g id site (.finish (.panicked payload)))
      (.supervise i g id site (.finalize .unwound .lock))
  | publish (t i g id site outcome cleanupPanicked) : Jump (.unwind t) t
      (.supervise i g id site (.publish outcome cleanupPanicked))
      (.supervise i g id site (.finalize .unwound .lock))

theorem jump_of_dropFuture {t : Tid} {p p' : Pc R K E} (h : p.dropFuture = some p') :
    Jump (.dropFuture t) t p p' := by
  unfold Pc.dropFuture at h
  split at h <;> cases h <;> constructor

theorem jump_of_dropSupervising {t : Tid} {p p' : Pc R K E} (h : p.dropSupervising = some p') :
    Jump (.dropSupervisor t) t p p' := by
  unfold Pc.dropSupervising at h
  split at h <;> cases h <;> constructor

theorem jump_of_unwind {t : Tid} {m : Memory R K E} {p p' : Pc R K E}
    (h : p.unwind m = some p') : Jump (.unwind t) t p p' := by
  unfold Pc.unwind at h
  split at h
  case h_3 =>
    split_ifs at h
    cases h
    constructor
  all_goals cases h <;> constructor

/-! ## Inversion of a step -/

variable [DecidableEq R] [DecidableEq K]

/-- The memory after the task of `g` has come to `st`. -/
def Memory.setTask (m : Memory R K E) (g : GenId) (st : TaskState E) : Memory R K E :=
  { m with task := update m.task g st }

/-- What an action does, kind by kind. -/
inductive StepCases (cfg : Config R K) (s : State R K E) :
    Action R K E → State R K E → Prop
  | call {c : Call R K} {m : Memory R K E} {p : Pc R K E} (h : begin cfg s.mem c = some (m, p)) :
      StepCases cfg s (.call c) ((s.setMem m).fork (some p))
  | run {t : Tid} {ch : Choice} {mv : Move (Memory R K E) (Pc R K E)} (ready : s.Ready t)
      (h : execute cfg t ch s.mem (s.pc t).code = some mv) :
      StepCases cfg s (.run t ch) (s.advance t mv)
  | jump {a : Action R K E} {t : Tid} {p : Pc R K E} (ready : s.Ready t)
      (h : Jump a t (s.pc t) p) : StepCases cfg s a (s.setPc t p)
  | task {a : Action R K E} {g : GenId} {st : TaskState E} (about : a.taskOf = some g)
      (h : taskStep s.mem g a = some st) : StepCases cfg s a (s.setMem (s.mem.setTask g st))
  | hold {a : Action R K E} {m : Memory R K E} {c : Option (Pc R K E)}
      (h : hold s.mem a = some (m, c)) : StepCases cfg s a ((s.setMem m).fork c)

variable {cfg : Config R K} {s s' : State R K E} {a : Action R K E}

theorem task_or_hold (h : (match a.taskOf with
    | some g => (taskStep s.mem g a).map fun st =>
      s.setMem { s.mem with task := update s.mem.task g st }
    | none => (hold s.mem a).map fun (m, child) => (s.setMem m).fork child) = some s') :
    StepCases cfg s a s' := by
  split at h
  · rename_i g hg
    obtain ⟨st, hst, rfl⟩ := Option.map_eq_some_iff.mp h
    exact .task hg hst
  · obtain ⟨⟨m, c⟩, hm, rfl⟩ := Option.map_eq_some_iff.mp h
    exact .hold hm

/-- **Inversion.** -/
theorem step_cases (h : step cfg s a = some s') : StepCases cfg s a s' := by
  cases a
  case call c =>
    obtain ⟨⟨m, p⟩, hm, rfl⟩ := Option.map_eq_some_iff.mp h
    exact .call hm
  case run t ch =>
    simp only [step] at h
    split_ifs at h with ht
    obtain ⟨mv, hmv, rfl⟩ := Option.map_eq_some_iff.mp h
    exact .run ht hmv
  case dropFuture t =>
    simp only [step] at h
    split_ifs at h with ht
    obtain ⟨p, hp, rfl⟩ := Option.map_eq_some_iff.mp h
    exact .jump ht (jump_of_dropFuture hp)
  case dropSupervisor t =>
    simp only [step] at h
    split_ifs at h with ht
    obtain ⟨p, hp, rfl⟩ := Option.map_eq_some_iff.mp h
    exact .jump ht (jump_of_dropSupervising hp)
  case unwind t =>
    simp only [step] at h
    split_ifs at h with ht
    obtain ⟨p, hp, rfl⟩ := Option.map_eq_some_iff.mp h
    exact .jump ht (jump_of_unwind hp)
  all_goals exact task_or_hold h

/-! ## The holders' actions -/

/-- What the holders of references and observers can do to the memory. -/
inductive HoldCases (m : Memory R K E) : Action R K E → Memory R K E → Option (Pc R K E) → Prop
  | clone {h : Holder} {g : GenId} (mem : (h, g) ∈ m.refs) (alive : m.Alive h) :
      HoldCases m (.clone h g) { m with
        strong := update m.strong g (m.strong g + 1)
        refs := (h, g) :: m.refs } none
  | move {h h' : Holder} {g : GenId} (mem : (h, g) ∈ m.refs) (alive : m.Alive h)
      (alive' : m.Alive h') :
      HoldCases m (.move h h' g) { m with refs := (h', g) :: m.refs.erase (h, g) } none
  | release {h : Holder} {g : GenId} (mem : (h, g) ∈ m.refs) (other : m.strong g ≠ 1) :
      HoldCases m (.release h g) { m with
        strong := update m.strong g (m.strong g - 1)
        refs := m.refs.erase (h, g) } none
  | releaseLast {h : Holder} {g : GenId} (mem : (h, g) ∈ m.refs) (last : m.strong g = 1) :
      HoldCases m (.release h g) { m with
        strong := update m.strong g 0
        refs := m.refs.erase (h, g) } (some (.destructor g))
  | completion {h : Holder} {g : GenId} (mem : (h, g) ∈ m.refs) (alive : m.Alive h) :
      HoldCases m (.completion h g) { m with
        receivers := update m.receivers g (m.receivers g + 1)
        completions := update m.completions g (m.completions g + 1) } none
  | cloneCompletion {g : GenId} (held : 0 < m.completions g) :
      HoldCases m (.cloneCompletion g) { m with
        receivers := update m.receivers g (m.receivers g + 1)
        completions := update m.completions g (m.completions g + 1) } none
  | dropCompletion {g : GenId} (held : 0 < m.completions g) :
      HoldCases m (.dropCompletion g) { m with
        receivers := update m.receivers g (m.receivers g - 1)
        completions := update m.completions g (m.completions g - 1) } none

omit [DecidableEq R] [DecidableEq K] in
theorem hold_cases {m m' : Memory R K E} {c : Option (Pc R K E)}
    (h : hold m a = some (m', c)) : HoldCases m a m' c := by
  cases a <;> simp only [hold] at h <;> try cases h
  case clone h' g =>
    split_ifs at h with hc
    cases h
    exact .clone hc.1 hc.2
  case move h' h'' g =>
    split_ifs at h with hc
    cases h
    exact .move hc.1 hc.2.1 hc.2.2
  case release h' g =>
    split_ifs at h with hc h1
    · cases h
      rw [h1]
      exact .releaseLast hc h1
    · cases h
      exact .release hc h1
  case completion h' g =>
    split_ifs at h with hc
    cases h
    exact .completion hc.1 hc.2
  case cloneCompletion g =>
    split_ifs at h with hc
    cases h
    exact .cloneCompletion hc
  case dropCompletion g =>
    split_ifs at h with hc
    cases h
    exact .dropCompletion hc

/-! ## The calls -/

/-- How the calls start. -/
inductive CallCases (cfg : Config R K) (m : Memory R K E) :
    Call R K → Memory R K E → Pc R K E → Prop
  | acquire {q : Request R K} (canonical : cfg.canonical q.ident.ty = true) :
      CallCases cfg m (.acquire q) m (.acquire q .accepting)
  | spawn {q : Request R K} (unique : cfg.canonical q.ident.ty = false) (op : q.op = .spawn) :
      CallCases cfg m (.acquire q) m (.acquire q (.create none .accepting))
  | discover {q : Query} {i : Ident R K} (canonical : cfg.canonical i.ty = true) :
      CallCases cfg m (.discover q i) m (.discover q i .slot)
  | all {r : R} : CallCases cfg m (.all r) m (.all r .iter)
  | upgrade {g : GenId} (known : g < m.nextGen) :
      CallCases cfg m (.upgrade g) m (.upgrade g .entry)
  | cancel : CallCases cfg m .cancel m (.cancel .lock)
  | shutdown : CallCases cfg m .shutdown m (.shutdown (.cancel .lock))
  | terminate : CallCases cfg m .terminate m (.terminate (.cancel .lock))
  | finished {h : Holder} {g : GenId} (mem : (h, g) ∈ m.refs) (alive : m.Alive h) :
      CallCases cfg m (.finished h g)
        { m with receivers := update m.receivers g (m.receivers g + 1) } (.wait g (.borrow 0))
  | wait {g : GenId} (held : 0 < m.completions g) :
      CallCases cfg m (.wait g)
        { m with completions := update m.completions g (m.completions g - 1) }
        (.wait g (.borrow 0))

omit [DecidableEq R] [DecidableEq K] in
theorem call_cases {c : Call R K} {m m' : Memory R K E} {p : Pc R K E}
    (h : begin cfg m c = some (m', p)) : CallCases cfg m c m' p := by
  cases c <;> simp only [begin] at h
  case acquire q =>
    split_ifs at h with hc hq
    · cases h
      exact .acquire hc
    · cases h
      exact .spawn (by simpa using hc) hq
  case discover q i =>
    split_ifs at h with hc
    cases h
    exact .discover hc
  case upgrade g =>
    split_ifs at h with hc
    cases h
    exact .upgrade hc
  case finished h' g =>
    split_ifs at h with hc
    cases h
    exact .finished hc.1 hc.2
  case wait g =>
    split_ifs at h with hc
    cases h
    exact .wait hc
  all_goals
    cases h
    constructor

/-! ## The tasks -/

/-- What happens to tasks. -/
inductive TaskCases (m : Memory R K E) (g : GenId) : Action R K E → TaskState E → Prop
  | poll (gated : m.task g = .gated) (live : m.aborted g = false) :
      TaskCases m g (.poll g) .polling
  | resume (suspended : m.task g = .suspended) (live : m.aborted g = false) :
      TaskCases m g (.poll g) .running
  | wait (polling : m.task g = .polling) (pending : m.start g = .pending) :
      TaskCases m g (.gate g) .gated
  | start (polling : m.task g = .polling) (open_ : m.start g ≠ .pending) :
      TaskCases m g (.gate g) .running
  | yield (running : m.task g = .running) : TaskCases m g (.yield g) .suspended
  | finish {result : JoinResult E} (running : m.task g = .running) :
      TaskCases m g (.finish g result) (.ended result)
  | reap {panic : Option Payload} (idle : m.task g = .gated ∨ m.task g = .suspended)
      (aborted : m.aborted g = true) : TaskCases m g (.reap g panic) (.ended (.ofDrop panic))
  | dropTask {panic : Option Payload} (idle : m.task g = .gated ∨ m.task g = .suspended) :
      TaskCases m g (.dropTask g panic) (.ended (.ofDrop panic))

omit [DecidableEq R] [DecidableEq K] in
theorem task_cases {m : Memory R K E} {g : GenId} {st : TaskState E} (ha : a.taskOf = some g)
    (h : taskStep m g a = some st) : TaskCases m g a st := by
  cases a <;> simp only [Action.taskOf, Option.some.injEq, reduceCtorEq] at ha <;> subst ha <;>
    simp only [taskStep] at h
  case poll =>
    split at h
    · rename_i ht
      split_ifs at h with hc
      cases h
      exact .poll ht (by simpa using hc)
    · rename_i ht
      split_ifs at h with hc
      cases h
      exact .resume ht (by simpa using hc)
    · cases h
  case gate =>
    split at h
    · rename_i ht
      split_ifs at h with hc <;> cases h
      · exact .wait ht hc
      · exact .start ht hc
    · cases h
  case yield =>
    split at h
    · cases h
      exact .yield ‹_›
    · cases h
  case finish =>
    split at h
    · cases h
    · cases h
      exact .finish ‹_›
    · cases h
  case reap =>
    split at h
    · rename_i ht
      split_ifs at h with hc
      cases h
      exact .reap (.inl ht) hc
    · rename_i ht
      split_ifs at h with hc
      cases h
      exact .reap (.inr ht) hc
    · cases h
  case dropTask =>
    split at h
    · cases h
      exact .dropTask (.inl ‹_›)
    · cases h
      exact .dropTask (.inr ‹_›)
    · cases h

/-! ## A frame -/

/-- `Control::cancel` writes the phase of its control and cancels its token, nothing else. -/
theorem Control.wp_cancel {α : Type} {t : Tid} {m : Memory R K E}
    {Q : Memory R K E → α → Option α → Prop} {ret : α} {g : GenId} {goto : Control.CancelPc → α}
    {p : Control.CancelPc}
    (hgoto : ∀ control cancels p',
      Q { m with control := control, cancels := cancels } (goto p') none)
    (hret : ∀ control cancels, Q { m with control := control, cancels := cancels } ret none) :
    (Control.cancel g goto ret p).wp cfg t m Q := by
  cases p
  case load =>
    exact ⟨fun _ => hgoto m.control m.cancels _, fun _ => hgoto m.control m.cancels _,
      fun _ => hret m.control m.cancels, fun _ => hret m.control m.cancels⟩
  case exchange current =>
    exact ⟨fun _ => hgoto _ m.cancels _, fun _ => hgoto m.control m.cancels _,
      fun _ => hgoto m.control m.cancels _, fun _ => hret m.control m.cancels,
      fun _ => hret m.control m.cancels⟩
  case token => exact hret m.control _

/-! ## Rules -/

/-- The thread that acts, if it is a thread that does. -/
def Action.actor : Action R K E → Option Tid
  | .run t _ | .dropFuture t | .dropSupervisor t | .unwind t => some t
  | _ => none

/-- The thread that executes its instruction. -/
def Action.runner? : Action R K E → Option Tid
  | .run t _ => some t
  | _ => none

omit [DecidableEq R] [DecidableEq K] in
theorem run_of_runner {t : Tid} (h : t ∈ a.runner?) : ∃ ch, a = .run t ch := by
  cases a <;> cases h
  exact ⟨_, rfl⟩

/-- **Rule for the memory.** A property of the memory holds after an action when every kind of
action establishes it. -/
theorem mem_step (G : Memory R K E → Prop) (h : step cfg s a = some s') (hG : G s.mem)
    (hrun : ∀ t p, a.actor = some t → s.pc t = p → s.Ready t →
      p.code.wp cfg t s.mem fun m _ _ => G m)
    (hcall : ∀ c m p, a = .call c → CallCases cfg s.mem c m p → G m)
    (htask : ∀ g st, TaskCases s.mem g a st → G (s.mem.setTask g st))
    (hhold : ∀ m c, HoldCases s.mem a m c → G m) : G s'.mem := by
  cases step_cases h with
  | call hb => simpa using hcall _ _ _ rfl (call_cases hb)
  | run hr he => simpa using (hrun _ _ rfl rfl hr).sound he
  | jump => exact hG
  | task ha ht => exact htask _ _ (task_cases ha ht)
  | hold hh => simpa using hhold _ _ (hold_cases hh)

/-- **Rule for the threads.** A property of every thread holds after an action when the thread
that acts establishes it for itself and for a thread it starts, and every other one keeps it. -/
theorem forall_pc_exec (A : Memory R K E → Tid → Pc R K E → Prop) (h : step cfg s a = some s')
    (hstable : ∀ u, a.actor ≠ some u → A s'.mem u (s.pc u))
    (hrun : ∀ t ch mv, a = .run t ch → s.Ready t → execute cfg t ch s.mem (s.pc t).code = some mv →
      A mv.mem t mv.pc ∧ ForSome (A mv.mem s.size) mv.child)
    (hjump : ∀ t p p', Jump a t p p' → s.pc t = p → s.Ready t → A s.mem t p')
    (hcall : ∀ c m p, a = .call c → CallCases cfg s.mem c m p → A m s.size p)
    (hhold : ∀ m c, HoldCases s.mem a m (some c) → A m s.size c) (u : Tid) :
    A s'.mem u (s'.pc u) := by
  cases step_cases h with
  | @call _ m _ hb =>
    rw [Pool.fork_mem] at hstable ⊢
    have hother (u : Tid) : A m u ((s.setMem m).pc u) := hstable u (by simp [Action.actor])
    refine Pool.forall_pc_fork hother ?_ u
    rintro _ ⟨⟩
    exact hcall _ _ _ rfl (call_cases hb)
  | @run t ch mv hr he =>
    rw [Pool.advance_mem] at hstable ⊢
    have hs := hrun t ch mv rfl hr he
    have hother (u : Tid) (hu : u ≠ t) : A mv.mem u (s.pc u) :=
      hstable u (by simpa [Action.actor] using hu.symm)
    refine Pool.forall_pc_advance hs.1 hother (fun d hd => ?_) u
    simpa only [hd, ForSome] using hs.2
  | @jump _ t p hr hj =>
    have hact : a.actor = some t := by
      generalize s.pc t = q at hj
      cases hj <;> rfl
    have hother (u : Tid) (hu : u ≠ t) : A s.mem u (s.pc u) :=
      hstable u (by simpa [hact] using hu.symm)
    exact Pool.forall_pc_setPc (hjump t _ p hj rfl hr) hother u
  | @task _ g st ha ht =>
    refine hstable u ?_
    cases a <;> cases ha <;> simp [Action.actor]
  | @hold _ m c hh =>
    rw [Pool.fork_mem] at hstable ⊢
    have hother (u : Tid) : A m u ((s.setMem m).pc u) := by
      refine hstable u ?_
      cases hold_cases hh <;> simp [Action.actor]
    refine Pool.forall_pc_fork hother ?_ u
    rintro _ rfl
    exact hhold _ _ (hold_cases hh)

/-- The rule for the threads, with the step of a thread as a weakest precondition. -/
theorem forall_pc_step (A : Memory R K E → Tid → Pc R K E → Prop) (h : step cfg s a = some s')
    (hA : ∀ u, A s.mem u (s.pc u))
    (hstable : ∀ u, a.actor ≠ some u → A s'.mem u (s.pc u))
    (hrun : ∀ t p, a.actor = some t → s.pc t = p → s.Ready t → A s.mem t p →
      p.code.wp cfg t s.mem fun m p' c => A m t p' ∧ ForSome (A m s.size) c)
    (hjump : ∀ t p p', Jump a t p p' → s.pc t = p → s.Ready t → A s.mem t p → A s.mem t p')
    (hcall : ∀ c m p, a = .call c → CallCases cfg s.mem c m p → A m s.size p)
    (hhold : ∀ m c, HoldCases s.mem a m (some c) → A m s.size c) (u : Tid) :
    A s'.mem u (s'.pc u) := by
  refine forall_pc_exec A h hstable ?_ ?_ hcall hhold u
  · rintro t ch mv rfl hr he
    exact (hrun t _ rfl rfl hr (hA t)).sound he
  · rintro t p p' hj rfl hr
    exact hjump t _ p' hj rfl hr (hA t)

/-- **Rule for an invariant** with a part `G` about the memory and a part `A` about every
thread. -/
theorem inv_step (G : Memory R K E → Prop) (A : Memory R K E → Tid → Pc R K E → Prop)
    (h : step cfg s a = some s') (hG : G s.mem) (hA : ∀ u, A s.mem u (s.pc u))
    (hstable : G s'.mem → ∀ u, a.actor ≠ some u → A s'.mem u (s.pc u))
    (hrun : ∀ t p, a.actor = some t → s.pc t = p → s.Ready t → A s.mem t p →
      p.code.wp cfg t s.mem fun m p' c => (G m ∧ A m t p') ∧ ForSome (A m s.size) c)
    (hjump : ∀ t p p', Jump a t p p' → s.pc t = p → s.Ready t → A s.mem t p → A s.mem t p')
    (hcall : ∀ c m p, a = .call c → CallCases cfg s.mem c m p → G m ∧ A m s.size p)
    (htask : ∀ g st, TaskCases s.mem g a st → G (s.mem.setTask g st))
    (hhold : ∀ m c, HoldCases s.mem a m c → G m ∧ ForSome (A m s.size) c) :
    G s'.mem ∧ ∀ u, A s'.mem u (s'.pc u) := by
  have hG' : G s'.mem := by
    refine mem_step G h hG ?_ (fun c m p e hc => (hcall c m p e hc).1) htask
      fun m c hh => (hhold m c hh).1
    rintro t p ha rfl hr
    exact (hrun t _ ha rfl hr (hA t)).mono fun _ _ _ h => h.1.1
  refine ⟨hG', forall_pc_step A h hA (hstable hG') ?_ hjump
    (fun c m p e hc => (hcall c m p e hc).2) fun m c hh => (hhold m (some c) hh).2⟩
  exact fun t p ha hp hr hAt => (hrun t p ha hp hr hAt).mono fun _ _ _ h => ⟨h.1.2, h.2⟩

/-- **Rule for sums.** `k` is what the threads other than the acting one contribute. -/
theorem total_exec (f : Pc R K E → ℕ) (P : Memory R K E → ℕ → Prop)
    (h : step cfg s a = some s')
    (hrun : ∀ t ch mv k, a = .run t ch → s.Ready t → s.total f = k + f (s.pc t) →
      execute cfg t ch s.mem (s.pc t).code = some mv →
      P mv.mem (k + f mv.pc + (mv.child.map f).getD 0))
    (hjump : ∀ t p p' k, Jump a t p p' → s.pc t = p → s.total f = k + f p → P s.mem (k + f p'))
    (hcall : ∀ c m p, a = .call c → CallCases cfg s.mem c m p → P m (s.total f + f p))
    (htask : ∀ g st, TaskCases s.mem g a st → P (s.mem.setTask g st) (s.total f))
    (hhold : ∀ m c, HoldCases s.mem a m c → P m (s.total f + (c.map f).getD 0)) :
    P s'.mem (s'.total f) := by
  cases step_cases h with
  | call hb =>
    rw [Pool.fork_mem, Pool.total_fork]
    exact hcall _ _ _ rfl (call_cases hb)
  | @run t ch mv hr he =>
    have hle := Pool.le_total f hr.1
    have hadv := Pool.total_advance f hr.1 mv
    have hs := hrun t ch mv (s.total f - f (s.pc t)) rfl hr (by omega) he
    rw [Pool.advance_mem, show (s.advance t mv).total f =
      s.total f - f (s.pc t) + f mv.pc + (mv.child.map f).getD 0 by omega]
    exact hs
  | @jump _ t p hr hj =>
    have hle := Pool.le_total f hr.1
    have hset := Pool.total_setPc f hr.1 p
    rw [show (s.setPc t p).total f = s.total f - f (s.pc t) + f p by omega]
    exact hjump t _ p _ hj rfl (by omega)
  | task ha ht => exact htask _ _ (task_cases ha ht)
  | hold hh =>
    rw [Pool.fork_mem, Pool.total_fork]
    exact hhold _ _ (hold_cases hh)

/-- The rule for sums, with the step of a thread as a weakest precondition. -/
theorem total_step (f : Pc R K E → ℕ) (P : Memory R K E → ℕ → Prop)
    (h : step cfg s a = some s')
    (hrun : ∀ t p k, a.actor = some t → s.pc t = p → s.Ready t → s.total f = k + f p →
      p.code.wp cfg t s.mem fun m p' c => P m (k + f p' + (c.map f).getD 0))
    (hjump : ∀ t p p' k, Jump a t p p' → s.pc t = p → s.total f = k + f p → P s.mem (k + f p'))
    (hcall : ∀ c m p, a = .call c → CallCases cfg s.mem c m p → P m (s.total f + f p))
    (htask : ∀ g st, TaskCases s.mem g a st → P (s.mem.setTask g st) (s.total f))
    (hhold : ∀ m c, HoldCases s.mem a m c → P m (s.total f + (c.map f).getD 0)) :
    P s'.mem (s'.total f) := by
  refine total_exec f P h ?_ hjump hcall htask hhold
  rintro t ch mv k rfl hr hk he
  exact (hrun t _ k rfl rfl hr hk).sound he

/-! ## One thread -/

/-- **Rule for the thread that moves.** -/
theorem pc_of_run {t : Tid} {ch : Choice} {Q : Memory R K E → Pc R K E → Option (Pc R K E) → Prop}
    (h : step cfg s (.run t ch) = some s') (hwp : (s.pc t).code.wp cfg t s.mem Q) :
    ∃ c, Q s'.mem (s'.pc t) c := by
  cases step_cases h with
  | @run _ _ mv hr he =>
    refine ⟨mv.child, ?_⟩
    rw [Pool.advance_mem, Pool.advance_pc_self hr.1]
    exact hwp.sound he
  | jump _ hj => cases hj
  | task ha => cases ha
  | hold hh => cases hh

/-! ## Steps in which no key operation panics -/

/-- Where a panic of the key operation at a point leads. -/
def Pc.panic? : Pc R K E → Option (Pc R K E)
  | .acquire q (.claim .entry) => some (.acquire q (.returned .panicked))
  | .acquire q (.cloneKey ..) => some (.acquire q (.returned .panicked))
  | .acquire q (.cloneCleanupKey n generation) =>
    some (.acquire q (.guard n generation .panicked (.remove .entry)))
  | .acquire q (.guard _ _ _ (.remove .entry)) => some (.acquire q (.returned .panicked))
  | .supervise i g id site (.cleanup _ outcome .entry) =>
    some (.supervise i g id site (.publish outcome true))
  | .discover q i .slot => some (.discover q i .panicked)
  | _ => none

/-- A key operation that does not panic does not lead there. -/
theorem not_panic {m : Memory R K E} {t : Tid} {ch : Choice} {p : Pc R K E}
    {mv : Move (Memory R K E) (Pc R K E)} (he : execute cfg t ch m p.code = some mv)
    (hc : ch ≠ .keyPanics) : p.panic? ≠ some mv.pc := by
  unfold Pc.panic?
  split
  case h_7 => exact (Option.some_ne_none _).symm
  all_goals
    simp only [Pc.code, ResourceContext.acquire, Registry.claimInner, ResourceContext.dropGuard,
      Registry.removeIfSame, ResourceContext.supervise, ResourceContext.status, execute,
      if_neg hc] at he
  case h_2 | h_3 =>
    rw [eq_of_goOn he]
    intro h
    cases h
  all_goals
    split at he
    · rw [eq_of_goOn he]
      dsimp only
      intro h
      split at h <;> cases h
    · cases he

/-- **Soundness** without panics: what is promised of every step but a panic holds. -/
theorem wp_calm {m : Memory R K E} {t : Tid} {ch : Choice} {p : Pc R K E}
    {mv : Move (Memory R K E) (Pc R K E)} {Q : Memory R K E → Pc R K E → Option (Pc R K E) → Prop}
    (hwp : p.code.wp cfg t m fun m p' c => p.panic? = some p' ∨ Q m p' c)
    (he : execute cfg t ch m p.code = some mv) (hc : ch ≠ .keyPanics) : Q mv.mem mv.pc mv.child :=
  (hwp.sound he).resolve_left (not_panic he hc)

/-! ## Threads that have not been started -/

theorem fresh_step (h : step cfg s a = some s') (hf : Pool.Fresh .idle s) :
    Pool.Fresh .idle s' := by
  cases step_cases h with
  | @call _ m _ hb =>
    have hm : Pool.Fresh .idle (s.setMem m) := hf
    exact Pool.fresh_fork hm _
  | run hr he => exact Pool.fresh_advance hf hr.1 _
  | jump hr hj => exact Pool.fresh_setPc hf hr.1 _
  | task => exact hf
  | @hold _ m _ hh =>
    have hm : Pool.Fresh .idle (s.setMem m) := hf
    exact Pool.fresh_fork hm _

theorem fresh_of_reach {ok : State R K E → Action R K E → Prop}
    (hr : Reach (step cfg) ok State.new s) : Pool.Fresh .idle s :=
  hr.invariant (Pool.Fresh .idle) (fun _ _ => rfl) fun _ _ _ hf _ h => fresh_step h hf

/-- No thread is taken back. -/
theorem size_of_reach {ok : State R K E → Action R K E → Prop} (hr : Reach (step cfg) ok s s') :
    s.size ≤ s'.size := by
  refine hr.rel (fun u v => u.size ≤ v.size) (fun _ => Nat.le_refl _) (fun _ _ _ => Nat.le_trans) ?_
  intro u a u' _ h
  cases step_cases h with
  | @call _ m _ _ => exact Pool.le_fork_size (u.setMem m) _
  | @run t _ mv _ _ =>
    exact Pool.le_fork_size (((u.setMem mv.mem).setPc t mv.pc).await t _) mv.child
  | jump => exact Nat.le_refl _
  | task => exact Nat.le_refl _
  | @hold _ m _ _ => exact Pool.le_fork_size (u.setMem m) _

omit [DecidableEq R] [DecidableEq K] in
theorem lt_size_of_ne_idle (hf : Pool.Fresh .idle s) {u : Tid} (h : s.pc u ≠ .idle) :
    u < s.size := by
  by_contra hn
  exact h (hf u (Nat.le_of_not_lt hn))

end Resourcery
