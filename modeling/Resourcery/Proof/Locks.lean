import Mathlib.Tactic.CasesM
import Resourcery.Logic.Points

/-!
# Locks

Which locks a thread holds at each of its program points, and that it does: the supervisor lock,
the write lock of a shard of a registry's map, the lock of a slot's state. `Keeps` is what the
holder of a lock may rely on while other threads move.
-/

namespace Resourcery

open Interleaving Function Transition ResourceContext

variable {R K E : Type}

/-! ## The locks held at a program point -/

namespace Domain

/-- The supervisor lock is held. -/
def RegisterPc.locked : RegisterPc → Bool
  | .accepting | .lock => false
  | _ => true

@[inherit_doc RegisterPc.locked]
def FinishedPc.locked : FinishedPc → Bool
  | .lock | .notify => false
  | _ => true

@[inherit_doc RegisterPc.locked]
def CancelPc.locked : CancelPc → Bool
  | .lock | .next _ | .control .. => false
  | _ => true

@[inherit_doc RegisterPc.locked]
def ShutdownPc.locked : ShutdownPc → Bool
  | .cancel p => p.locked
  | _ => false

@[inherit_doc RegisterPc.locked]
def TerminatePc.locked : TerminatePc → Bool
  | .cancel p => p.locked
  | .collect | .dropSupervisor _ => true
  | .shutdown p => p.locked
  | _ => false

end Domain

namespace Registry

/-- The entry of the map, and with it the shard, is locked. -/
def ClaimPc.locked : ClaimPc → Bool
  | .entry | .dropFound _ => false
  | _ => true

/-- The slot whose state is locked. -/
def ClaimPc.slot? : ClaimPc → Option ℕ
  | .listen n | .upgrade n _ _ | .tryAcquire n _ _ _ | .dropResource n _ _ | .recheck n _ _
  | .takeover n _ _ | .dropState n _ => some n
  | _ => none

@[inherit_doc ClaimPc.locked]
def RemovePc.locked : RemovePc → Bool
  | .entry => false
  | _ => true

/-- The state of the slot is locked. -/
def RemovePc.stateLocked : RemovePc → Bool
  | .dropState _ => true
  | _ => false

end Registry

/-- The slot whose state is locked. -/
def ResourceContext.StatusPc.slot? : StatusPc → Option ℕ
  | .upgrade n _ | .tryAcquire n _ _ | .dropEntry n _ | .dropState n _ => some n
  | _ => none

namespace Pc

/-- The supervisor lock is held. -/
def supervises : Pc R K E → Bool
  | .acquire _ (.create _ (.register _ p)) => p.locked
  | .supervise _ _ _ _ (.finalize _ p) => p.locked
  | .cancel p => p.locked
  | .shutdown p => p.locked
  | .terminate p => p.locked
  | _ => false

/-- The identity whose entry in the map is locked. -/
def shard? : Pc R K E → Option (Ident R K)
  | .acquire q (.claim p) => bif p.locked then some q.ident else none
  | .acquire q (.guard _ _ _ (.remove p)) => bif p.locked then some q.ident else none
  | .supervise i _ _ _ (.cleanup _ _ p) => bif p.locked then some i else none
  | _ => none

/-- The slot whose state is locked. -/
def slot? : Pc R K E → Option (Ident R K × ℕ)
  | .acquire q (.claim p) => p.slot?.map (q.ident, ·)
  | .acquire q (.settle n _ _ .storeActive) | .acquire q (.settle n _ _ .dropState) =>
    some (q.ident, n)
  | .acquire q (.guard n _ _ (.remove p)) => bif p.stateLocked then some (q.ident, n) else none
  | .discover _ i p => p.slot?.map (i, ·)
  | .supervise i _ _ _ (.cleanup site _ p) =>
    bif p.stateLocked then some (i, site.slot) else none
  | _ => none

end Pc

/-! ## Thread `t` holds the locks of its program point -/

variable {cfg : Config R K} {t : Tid} {m m' : Memory R K E} {p : Pc R K E}

structure Locked (cfg : Config R K) (m : Memory R K E) (t : Tid) (p : Pc R K E) : Prop where
  supervisor : p.supervises = true → m.supervisor = some t
  shard : ForSome (fun i => m.shard i.ty (cfg.shardOf i) = some t) p.shard?
  slotLock : ForSome (fun x => m.slotLock x.1 x.2 = some t) p.slot?

/-- What a step of another thread leaves to thread `u`: its locks and what they protect. -/
structure Keeps (cfg : Config R K) (u : Tid) (m m' : Memory R K E) : Prop where
  supervisor : m.supervisor = some u → m'.supervisor = some u ∧ m'.phase = m.phase ∧
    m'.tasks = m.tasks ∧ m'.shutdown = m.shutdown
  shard : ∀ i, m.shard i.ty (cfg.shardOf i) = some u →
    m'.shard i.ty (cfg.shardOf i) = some u ∧ m'.entries i = m.entries i
  slotLock : ∀ i n, m.slotLock i n = some u →
    m'.slotLock i n = some u ∧ (n < m.nextSlot i → m'.state i n = m.state i n)

/-- The accesses that need a lock are made under it. -/
def Instr.Disciplined {α : Type} (cfg : Config R K) (t : Tid) (m : Memory R K E) :
    Instr R K E α → Prop
  | .exchangeShuttingDown _ | .cancelShutdown _ | .storeTerminated _ | .unlockSupervisor _
  | .insertTask .. | .removeTask .. => m.supervisor = some t
  | .unlockShard i _ | .insertSlot i _ | .removeEntry i _ =>
    m.shard i.ty (cfg.shardOf i) = some t
  | .unlockSlot i n _ | .storeState i n _ _ => m.slotLock i n = some t
  | _ => True

theorem Keeps.of_eq {u : Tid} (h1 : m'.supervisor = m.supervisor) (h2 : m'.phase = m.phase)
    (h3 : m'.tasks = m.tasks) (h4 : m'.shutdown = m.shutdown) (h5 : m'.shard = m.shard)
    (h6 : m'.entries = m.entries) (h7 : m'.slotLock = m.slotLock) (h8 : m'.state = m.state) :
    Keeps cfg u m m' := by
  constructor
  · exact fun h => ⟨h1 ▸ h, h2, h3, h4⟩
  · exact fun i h => ⟨h5 ▸ h, congrFun h6 i⟩
  · exact fun i n h => ⟨h7 ▸ h, fun _ => congrFun (congrFun h8 i) n⟩

theorem disciplined_of_locked (h : Locked cfg m t p) : p.code.Disciplined cfg t m := by
  cases p using Pc.points
  all_goals
    first
    | exact trivial
    | exact h.supervisor rfl
    | exact h.shard
    | exact h.slotLock

variable [DecidableEq R] [DecidableEq K]

/-- A step under the discipline leaves the other threads' locks alone. -/
theorem wp_keeps {u : Tid} {α : Type} {ins : Instr R K E α} (hu : u ≠ t)
    (hd : ins.Disciplined cfg t m) : ins.wp cfg t m fun m' _ _ => Keeps cfg u m m' := by
  cases ins
  case halt => trivial
  case lockSupervisor k =>
    intro hs
    exact ⟨fun h => by simp [hs] at h, fun _ h => ⟨h, rfl⟩, fun _ _ h => ⟨h, fun _ => rfl⟩⟩
  case unlockSupervisor k | cancelShutdown k | storeTerminated k | insertTask g k
      | removeTask id k =>
    have hne : m.supervisor ≠ some u := fun h => hu (Option.some.inj (h.symm.trans hd))
    exact ⟨fun h => absurd h hne, fun _ h => ⟨h, rfl⟩, fun _ _ h => ⟨h, fun _ => rfl⟩⟩
  case exchangeShuttingDown k =>
    have hne : m.supervisor ≠ some u := fun h => hu (Option.some.inj (h.symm.trans hd))
    exact ⟨fun _ => ⟨fun h => absurd h hne, fun _ h => ⟨h, rfl⟩, fun _ _ h => ⟨h, fun _ => rfl⟩⟩,
      fun _ => .of_eq rfl rfl rfl rfl rfl rfl rfl rfl⟩
  case lockShard i panic k =>
    have hlock (hs : m.shard i.ty (cfg.shardOf i) = none) : Keeps cfg u m
        { m with shard := update₂ m.shard i.ty (cfg.shardOf i) (some t) } := by
      refine ⟨fun h => ⟨h, rfl, rfl, rfl⟩, fun j h => ⟨?_, rfl⟩, fun _ _ h => ⟨h, fun _ => rfl⟩⟩
      grind [update₂_apply]
    exact ⟨.of_eq rfl rfl rfl rfl rfl rfl rfl rfl,
      fun hs => ⟨fun _ _ => hlock hs, fun _ => hlock hs⟩⟩
  case unlockShard i k =>
    refine ⟨fun h => ⟨h, rfl, rfl, rfl⟩, fun j h => ⟨?_, rfl⟩, fun _ _ h => ⟨h, fun _ => rfl⟩⟩
    have : m.shard i.ty (cfg.shardOf i) = some t := hd
    grind [update₂_apply]
  case lockSlot i n k =>
    have hlock (hs : m.slotLock i n = none) : Keeps cfg u m
        { m with slotLock := update₂ m.slotLock i n (some t) } := by
      refine ⟨fun h => ⟨h, rfl, rfl, rfl⟩, fun j h => ⟨h, rfl⟩, fun _ _ h => ⟨?_, fun _ => rfl⟩⟩
      grind [update₂_apply]
    exact fun hs => ⟨fun _ _ => hlock hs, fun _ _ _ => hlock hs⟩
  case unlockSlot i n k =>
    refine ⟨fun h => ⟨h, rfl, rfl, rfl⟩, fun j h => ⟨h, rfl⟩, fun _ _ h => ⟨?_, fun _ => rfl⟩⟩
    have : m.slotLock i n = some t := hd
    grind [update₂_apply]
  case storeState i n st k =>
    refine ⟨fun h => ⟨h, rfl, rfl, rfl⟩, fun j h => ⟨h, rfl⟩, fun _ _ h => ⟨h, fun _ => ?_⟩⟩
    have : m.slotLock i n = some t := hd
    grind [update₂_apply]
  case insertSlot i k =>
    have : m.shard i.ty (cfg.shardOf i) = some t := hd
    refine ⟨fun h => ⟨h, rfl, rfl, rfl⟩, fun j h => ⟨h, ?_⟩, fun _ _ h => ⟨h, fun hn => ?_⟩⟩
    · grind [update]
    · grind [update₂_apply]
  case removeEntry i k =>
    have : m.shard i.ty (cfg.shardOf i) = some t := hd
    refine ⟨fun h => ⟨h, rfl, rfl, rfl⟩, fun j h => ⟨h, ?_⟩, fun _ _ h => ⟨h, fun _ => rfl⟩⟩
    grind [update]
  all_goals
    repeat' first
      | exact Keeps.of_eq rfl rfl rfl rfl rfl rfl rfl rfl
      | apply And.intro
      | intro _

omit [DecidableEq R] [DecidableEq K] in
theorem Locked.free (h1 : p.supervises = false) (h2 : p.shard? = none) (h3 : p.slot? = none) :
    Locked cfg m t p :=
  ⟨fun h => by simp [h1] at h, by rw [h2]; trivial, by rw [h3]; trivial⟩

omit [DecidableEq R] [DecidableEq K] in
theorem update₂_self {α β γ : Type} [DecidableEq α] [DecidableEq β] (f : α → β → γ) (a : α) (b : β)
    (c : γ) : update₂ f a b c a b = c := by simp

theorem locked_run {n : Tid} (h : Locked cfg m t p) :
    p.code.wp cfg t m fun m' p' c => Locked cfg m' t p' ∧ ForSome (Locked cfg m' n) c := by
  cases p using Pc.points
  all_goals
    repeat' first
      | apply And.intro
      | intro _
  all_goals
    first
    | exact trivial
    | refine iteInduction ?_ ?_ <;> intro _
    | skip
  all_goals
    constructor
    all_goals
      first
      | exact h.supervisor
      | exact h.shard
      | exact h.slotLock
      | exact trivial
      | exact Bool.noConfusion
      | exact fun _ => rfl
      | exact update₂_self _ _ _ _

omit [DecidableEq R] [DecidableEq K] in
/-- A step of a holder leaves what threads rely on; so does a step of a task. -/
theorem HoldCases.keeps {a : Action R K E} {c : Option (Pc R K E)} {u : Tid}
    (h : HoldCases m a m' c) : Keeps cfg u m m' := by
  cases h <;> exact .of_eq rfl rfl rfl rfl rfl rfl rfl rfl

omit [DecidableEq R] [DecidableEq K] in
theorem CallCases.keeps {c : Call R K} {u : Tid} (h : CallCases cfg m c m' p) :
    Keeps cfg u m m' := by
  cases h <;> exact .of_eq rfl rfl rfl rfl rfl rfl rfl rfl

/-- Every step keeps the locks of the threads that do not act. -/
theorem keeps_step {s s' : State R K E} {a : Action R K E} (h : step cfg s a = some s')
    (hl : ∀ u, Locked cfg s.mem u (s.pc u)) {u : Tid} (hu : a.actor ≠ some u) :
    Keeps cfg u s.mem s'.mem := by
  refine mem_step (Keeps cfg u s.mem) h ?_ ?_ ?_ ?_ ?_
  · exact .of_eq rfl rfl rfl rfl rfl rfl rfl rfl
  · rintro t p ha rfl -
    exact wp_keeps (fun e => hu (e ▸ ha)) (disciplined_of_locked (hl t))
  · exact fun c m p _ h => h.keeps
  · exact fun _ _ _ => .of_eq rfl rfl rfl rfl rfl rfl rfl rfl
  · exact fun m c h => h.keeps

omit [DecidableEq R] [DecidableEq K] in
theorem Locked.stable {u : Tid} (h : Locked cfg m u p) (hk : Keeps cfg u m m') :
    Locked cfg m' u p := by
  obtain ⟨h1, h2, h3⟩ := h
  refine ⟨fun e => (hk.supervisor (h1 e)).1, ?_, ?_⟩
  · cases he : p.shard? with
    | none => trivial
    | some i =>
      rw [he] at h2
      exact (hk.shard i h2).1
  · cases he : p.slot? with
    | none => trivial
    | some x =>
      rw [he] at h3
      exact (hk.slotLock x.1 x.2 h3).1

/-- **Lock discipline.** In every reachable state every thread holds the locks of its point. -/
theorem locked_of_reach {ok : State R K E → Action R K E → Prop} {s : State R K E}
    (hr : Reach (step cfg) ok State.new s) (u : Tid) : Locked cfg s.mem u (s.pc u) := by
  revert u
  refine hr.invariant (fun s => ∀ u, Locked cfg s.mem u (s.pc u)) ?_ ?_
  · exact fun u => .free rfl rfl rfl
  · intro s a s' ih _ h
    refine forall_pc_step (Locked cfg) h ih (fun u hu => (ih u).stable (keeps_step h ih hu))
      ?_ ?_ ?_ ?_
    · exact fun t p _ _ _ hl => locked_run hl
    · rintro t p p' hj - - hl
      cases hj <;> exact .free rfl rfl rfl
    · rintro c m p rfl hc
      cases hc <;> exact .free rfl rfl rfl
    · rintro m c hh
      cases hh
      exact .free rfl rfl rfl

end Resourcery
