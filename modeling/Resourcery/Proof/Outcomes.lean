import Resourcery.Logic.Threads
import Resourcery.Proof.Cancellation
import Resourcery.Proof.Supervision

/-!
# Outcomes

The outcome channel of a generation is written to at most once, by its supervising future. All
observers report the same outcome: what has been written, which is how the task ended, or
`Aborted` if the sender is gone and nothing has been or ever will be written.
-/

namespace Resourcery

open Interleaving Function Transition ResourceContext

variable {R K E : Type}

/-! ## Receivers -/

/-- An observer that waits still has its receiver. -/
def ResourceCompletion.WaitPc.receiver : WaitPc E → Bool
  | .borrow _ | .changed _ | .dropReceiver _ => true
  | .returned _ | .dropped => false

/-- An entry that is being destroyed still has its receiver. -/
def Entry.DropPc.receiver : DropPc → Bool
  | .cancel _ | .fields => true
  | .finished => false

/-- The receivers of the channel of `g` that a thread holds. -/
def Pc.receives (g : GenId) : Pc R K E → ℕ
  | .wait x p => if p.receiver then isGen g (some x) else 0
  | .drop x p => if p.receiver then isGen g (some x) else 0
  | _ => 0

/-- The receiver in an entry that is not being destroyed. -/
def Memory.kept (m : Memory R K E) (g : GenId) : ℕ := if 0 < m.strong g then 1 else 0

/-- From a memory where a thread holds `n` receivers of `g` to one where it holds `n'`, their
number changes with them. -/
def Received (g : GenId) (m : Memory R K E) (n : ℕ) (m' : Memory R K E) (n' : ℕ) : Prop :=
  m'.receivers g + m.completions g + m.kept g + n = m.receivers g + m'.completions g + m'.kept g + n'

variable {cfg : Config R K} {t u v : Tid} {m m' : Memory R K E} {p : Pc R K E} {g x : GenId}
  {s s' : State R K E} {a : Action R K E}

theorem update_succ (f : GenId → ℕ) (x g : GenId) :
    update f x (f x + 1) g = f g + isGen g (some x) := by
  unfold isGen
  by_cases hg : g = x
  · subst hg
    rw [update_self, if_pos rfl]
  · rw [update_of_ne hg, if_neg fun e => hg (Option.some.inj e).symm, Nat.add_zero]

theorem update_pred {f : GenId → ℕ} (hx : 0 < f x) (g : GenId) :
    update f x (f x - 1) g + isGen g (some x) = f g := by
  unfold isGen
  by_cases hg : g = x
  · subst hg
    rw [update_self, if_pos rfl]
    omega
  · rw [update_of_ne hg, if_neg fun e => hg (Option.some.inj e).symm, Nat.add_zero]

theorem Received.refl (m : Memory R K E) (n : ℕ) : Received g m n m n := rfl

theorem Received.of_kept {f : GenId → ℕ} (h : ∀ g, 0 < f g ↔ 0 < m.strong g) (n : ℕ) :
    Received g m n { m with strong := f } n := by
  have hk : ({ m with strong := f } : Memory R K E).kept g = m.kept g := if_congr (h g) rfl rfl
  unfold Received
  rw [hk]

theorem Received.upgrade (hx : 0 < m.strong x) (n : ℕ) :
    Received g m n { m with strong := update m.strong x (m.strong x + 1) } n := by
  refine .of_kept (fun y => ?_) n
  by_cases hy : y = x
  · rw [hy, update_self]
    exact ⟨fun _ => hx, fun _ => Nat.succ_pos _⟩
  · rw [update_of_ne hy]

theorem Received.drop (h0 : 0 < m.strong x) (h1 : m.strong x ≠ 1) (n : ℕ) :
    Received g m n { m with strong := update m.strong x (m.strong x - 1) } n := by
  refine .of_kept (fun y => ?_) n
  by_cases hy : y = x
  · rw [hy, update_self]
    omega
  · rw [update_of_ne hy]

/-- The receiver of an entry goes to its destructor. -/
theorem Received.dropLast (hx : m.strong x = 1) (n : ℕ) :
    Received g m n { m with strong := update m.strong x 0 } (n + isGen g (some x)) := by
  have hk : m.kept g = ({ m with strong := update m.strong x 0 } : Memory R K E).kept g +
      isGen g (some x) := by
    unfold Memory.kept isGen
    by_cases hg : g = x
    · subst hg
      simp [hx]
    · simp [update_of_ne hg, Ne.symm hg]
  unfold Received
  rw [hk]
  show m.receivers g + m.completions g + _ + n = m.receivers g + m.completions g + _ + _
  omega

theorem Received.dropReceiver (hx : isGen x (some x) ≤ m.receivers x) :
    Received g m (isGen g (some x))
      { m with receivers := update m.receivers x (m.receivers x - 1) } 0 := by
  rw [isGen_self] at hx
  have hr := update_pred hx g
  show update m.receivers x (m.receivers x - 1) g + m.completions g + m.kept g + _ =
    m.receivers g + m.completions g + m.kept g + 0
  omega

/-- An entry is created with its receiver. -/
theorem Received.newEntry (h0 : m.strong m.nextGen = 0) (h1 : m.receivers m.nextGen = 0)
    (hs : m'.strong = update m.strong m.nextGen 1)
    (hr : m'.receivers = update m.receivers m.nextGen 1) (hc : m'.completions = m.completions)
    (n : ℕ) : Received g m n m' n := by
  unfold Received Memory.kept
  rw [hs, hr, hc]
  by_cases hg : g = m.nextGen
  · subst hg
    rw [update_self, update_self, h0, h1]
    simp [Nat.add_comm]
  · rw [update_of_ne hg, update_of_ne hg]

section

variable [DecidableEq R] [DecidableEq K]

/-- A step moves the number of receivers and the threads' receivers together. -/
theorem wp_received (g : GenId) (hheld : ∀ x, p.held x ≤ m.strong x)
    (hrecv : ∀ x, p.receives x ≤ m.receivers x)
    (hnew : m.strong m.nextGen = 0 ∧ m.receivers m.nextGen = 0) :
    p.code.wp cfg t m fun m' p' c =>
      Received g m (p.receives g) m' (p'.receives g + (c.map (Pc.receives g)).getD 0) := by
  have pos {x : GenId} {k : ℕ} (hx : k + one x x ≤ m.strong x) : 0 < m.strong x := by
    rw [one_self] at hx; omega
  have pos' {x : GenId} (hx : one x x ≤ m.strong x) : 0 < m.strong x := by
    rw [one_self] at hx; omega
  cases p using Pc.points
  case acquire_claim_upgrade | discover_upgrade | upgrade_entry | all_filter_cons =>
    exact ⟨fun h => .upgrade h _, fun _ => .refl _ _⟩
  case acquire_claim_dropFound_spawn | acquire_claim_dropFound_getOrSpawn
      | acquire_claim_dropFound_tryGetOrSpawn | acquire_claim_dropResource
      | acquire_create_dropEntry | acquire_settle_dropResource | discover_dropEntry
      | upgrade_dropEntry =>
    exact ⟨fun h => .dropLast h _, fun h => .drop (pos' (hheld _)) h _⟩
  case all_dropEntry =>
    exact ⟨fun h => .dropLast h _, fun h => .drop (pos (hheld _)) h _⟩
  case acquire_create_newEntry => exact .newEntry hnew.1 hnew.2 (by rfl) (by rfl) (by rfl) 0
  case wait_dropReceiver_none | wait_dropReceiver_some | drop_fields =>
    exact .dropReceiver (hrecv _)
  case acquire_guard_remove_entry | supervise_cleanup_entry =>
    refine ⟨.refl _ _, fun _ => ⟨fun _ _ => ?_, fun _ => .refl _ _⟩⟩
    dsimp only
    split <;> exact Received.refl m 0
  all_goals
    repeat' first
      | exact trivial
      | apply And.intro
      | intro _
      | exact Received.refl m _

/-- A channel without a receiver gets none, unless its generation is created. -/
def Unobserved (m m' : Memory R K E) : Prop :=
  m.nextGen ≤ m'.nextGen ∧
    ∀ g, m.receivers g = 0 → m'.receivers g = 0 ∨ g = m.nextGen ∧ g < m'.nextGen

omit [DecidableEq R] [DecidableEq K] in
theorem Unobserved.refl (m : Memory R K E) : Unobserved m m := ⟨Nat.le_refl _, fun _ => .inl⟩

omit [DecidableEq R] [DecidableEq K] in
theorem Unobserved.of_update {k : ℕ} (hk : m.receivers x = 0 → k = 0)
    (h : m'.receivers = update m.receivers x k) (hn : m'.nextGen = m.nextGen) :
    Unobserved m m' := by
  refine ⟨Nat.le_of_eq hn.symm, fun g hg => .inl ?_⟩
  rw [h]
  by_cases hgx : g = x
  · rw [hgx, update_self]
    exact hk (hgx ▸ hg)
  · rw [update_of_ne hgx, hg]

theorem wp_unobserved {α : Type} (ins : Instr R K E α) :
    ins.wp cfg t m fun m' _ _ => Unobserved m m' := by
  cases ins
  case newEntry i site k =>
    refine ⟨Nat.le_succ _, fun g hg => ?_⟩
    by_cases hgx : g = m.nextGen
    · exact .inr ⟨hgx, by rw [hgx]; exact Nat.lt_succ_self _⟩
    · exact .inl ((update_of_ne hgx _ _).trans hg)
  case dropReceiver x k => exact .of_update (fun h => by rw [h]) rfl rfl
  all_goals
    repeat' first
      | exact trivial
      | exact ⟨Nat.le_refl _, fun _ => .inl⟩
      | apply And.intro
      | intro _

/-- The receivers of a channel are those of the completions, the observers that wait, and the
entry. -/
structure Watched (s : State R K E) : Prop where
  receivers : ∀ g, s.mem.receivers g =
    s.mem.completions g + s.total (Pc.receives g) + s.mem.kept g
  fresh : ∀ g, s.mem.nextGen ≤ g → s.mem.receivers g = 0

omit [DecidableEq R] [DecidableEq K] in
theorem Watched.receives_le (h : Watched s) (ht : t < s.size) (x : GenId) :
    (s.pc t).receives x ≤ s.mem.receivers x := by
  have := Pool.le_total (Pc.receives x) ht
  have := h.receivers x
  omega

omit [DecidableEq R] [DecidableEq K] in
theorem Watched.pos_of_strong (h : Watched s) (hs : 0 < s.mem.strong g) :
    0 < s.mem.receivers g := by
  have hk : s.mem.kept g = 1 := if_pos hs
  have := h.receivers g
  omega

omit [DecidableEq R] [DecidableEq K] in
theorem Watched.pos_of_completion (h : Watched s) (hc : 0 < s.mem.completions g) :
    0 < s.mem.receivers g := by
  have := h.receivers g
  omega

theorem Watched.unobserved (h : step cfg s a = some s') (hw : Watched s) (hc : Counted s) :
    Unobserved s.mem s'.mem := by
  have keep {y : GenId} {k : ℕ} (hy : 0 < s.mem.receivers y) (h0 : s.mem.receivers y = 0) :
      k = 0 := absurd hy (h0 ▸ Nat.lt_irrefl 0)
  refine mem_step (Unobserved s.mem) h (.refl _) ?_ ?_ ?_ ?_
  · exact fun t p _ _ _ => wp_unobserved _
  · rintro c m p - hcall
    cases hcall
    case finished hm _ => exact .of_update (keep (hw.pos_of_strong (hc.pos_of_mem hm))) rfl rfl
    all_goals exact ⟨Nat.le_refl _, fun _ => .inl⟩
  · exact fun _ _ _ => ⟨Nat.le_refl _, fun _ => .inl⟩
  · rintro m c hh
    cases hh
    case completion hm _ => exact .of_update (keep (hw.pos_of_strong (hc.pos_of_mem hm))) rfl rfl
    case cloneCompletion hp => exact .of_update (keep (hw.pos_of_completion hp)) rfl rfl
    case dropCompletion => exact .of_update (fun h0 => by rw [h0]) rfl rfl
    all_goals exact ⟨Nat.le_refl _, fun _ => .inl⟩

omit [DecidableEq R] [DecidableEq K] in
/-- What the holders do moves the number of receivers with the completions. -/
theorem HoldCases.received {c : Option (Pc R K E)} (h : HoldCases m a m' c)
    (hpos : ∀ holder x, (holder, x) ∈ m.refs → 0 < m.strong x)
    (hcomp : ∀ x, 0 < m.completions x → 0 < m.receivers x) (g : GenId) :
    Received g m 0 m' (0 + (c.map (Pc.receives g)).getD 0) := by
  have both {x : GenId} {f : ℕ → ℕ} (hf : f (m.receivers x) + m.completions x =
      m.receivers x + f (m.completions x)) :
      Received g m 0 { m with
        receivers := update m.receivers x (f (m.receivers x))
        completions := update m.completions x (f (m.completions x)) } 0 := by
    show update m.receivers x _ g + m.completions g + m.kept g + 0 =
      m.receivers g + update m.completions x _ g + m.kept g + 0
    by_cases hg : g = x
    · subst hg
      rw [update_self, update_self]
      omega
    · rw [update_of_ne hg, update_of_ne hg]
  cases h
  case clone h x hm ha => exact Received.upgrade (hpos h x hm) 0
  case move => exact Received.refl m 0
  case release h x hm h1 => exact Received.drop (hpos h x hm) h1 0
  case releaseLast h x hm h1 => exact Received.dropLast h1 0
  case completion h x hm ha => exact both (f := fun n => n + 1) (by omega)
  case cloneCompletion x hc => exact both (f := fun n => n + 1) (by omega)
  case dropCompletion x hc =>
    have := hcomp x hc
    exact both (f := fun n => n - 1) (by omega)

omit [DecidableEq R] [DecidableEq K] in
/-- An observer that begins to wait has a receiver. -/
theorem CallCases.received {c : Call R K} (h : CallCases cfg m c m' p) (g : GenId) :
    Received g m 0 m' (p.receives g) := by
  cases h
  case finished x _ _ =>
    have := update_succ m.receivers x g
    show update m.receivers x (m.receivers x + 1) g + m.completions g + m.kept g + 0 =
      m.receivers g + m.completions g + m.kept g + isGen g (some x)
    omega
  case wait x hc =>
    have := update_pred hc g
    show m.receivers g + m.completions g + m.kept g + 0 =
      m.receivers g + update m.completions x (m.completions x - 1) g + m.kept g + isGen g (some x)
    omega
  all_goals exact Received.refl m 0

theorem Watched.step (h : step cfg s a = some s') (hw : Watched s) (hc : Counted s) :
    Watched s' := by
  have hun := hw.unobserved h hc
  refine ⟨fun g => ?_, fun g hg => ?_⟩
  · have hs := hw.receivers g
    refine total_step (Pc.receives g) (fun m n => m.receivers g = m.completions g + n + m.kept g) h
      ?_ ?_ ?_ ?_ ?_
    · rintro t p k - rfl hr hk
      refine (wp_received g (hc.held_le hr.1) (hw.receives_le hr.1)
        ⟨hc.fresh _ (Nat.le_refl _), hw.fresh _ (Nat.le_refl _)⟩).mono fun m p' c hb => ?_
      unfold Received at hb
      omega
    · rintro t p p' k hj - hk
      rw [hk] at hs
      cases hj <;> exact hs
    · rintro c m p - hcall
      have hb := hcall.received g
      unfold Received at hb
      omega
    · exact fun _ _ _ => hs
    · rintro m c hh
      have hb := hh.received (fun _ _ => hc.pos_of_mem) (fun _ => hw.pos_of_completion) g
      unfold Received at hb
      omega
  · rcases hun.2 g (hw.fresh g (hun.1.trans hg)) with h0 | ⟨-, hlt⟩
    · exact h0
    · exact absurd hlt (Nat.not_lt.mpr hg)

theorem watched_of_reach {ok : State R K E → Action R K E → Prop}
    (hr : Reach (Resourcery.step cfg) ok State.new s) : Watched s :=
  hr.invariant_of_reach Watched ⟨fun _ => rfl, fun _ _ => rfl⟩
    fun _ _ _ hs hw _ h => hw.step h (counted_of_reach hs)

end

/-! ## The channel -/

/-- The channel of `g` is open: nothing has been sent, and the sender is still there. -/
def Memory.Open (m : Memory R K E) (g : GenId) : Prop := m.outcome g = none ∧ m.closed g = false

/-- A channel holds nothing at version zero or an outcome at version one. -/
structure Memory.Channels (m : Memory R K E) : Prop where
  empty : ∀ g, m.outcome g = none → m.version g = 0
  full : ∀ g, m.outcome g ≠ none → m.version g = 1
  fresh : ∀ g, m.nextGen ≤ g → m.Open g

/-- Only a channel that is open is written to. -/
def Instr.Sends {α : Type} (m : Memory R K E) : Instr R K E α → Prop
  | .send g _ _ => g < m.nextGen ∧ m.Open g
  | .dropSender g _ => g < m.nextGen
  | _ => True

/-- What a channel that is not open holds stays. -/
def Sealed (m m' : Memory R K E) : Prop := ∀ g, ¬ m.Open g → m'.outcome g = m.outcome g

/-- A thread that has the sender of `g` and has not used it finds the channel open. -/
def Pc.Unsent (m : Memory R K E) : Pc R K E → Prop
  | .acquire _ (.create _ p) => ForSome m.Open p.gen?
  | .supervise _ _ _ _ .removeLive | .supervise _ _ _ _ (.finalize .ran _)
  | .supervise _ _ _ _ (.dropSender .ran) | .supervise _ _ _ _ (.ended _) => True
  | .supervise _ g _ _ _ => m.Open g
  | _ => True

section

variable [DecidableEq R] [DecidableEq K]

theorem wp_channels {α : Type} {ins : Instr R K E α} (hi : ins.Sends m) (hm : m.Channels) :
    ins.wp cfg t m fun m' _ _ => m'.Channels ∧ Sealed m m' := by
  have other {x : GenId} (hx : x < m.nextGen) {g : GenId} (hg : m.nextGen ≤ g) : g ≠ x :=
    fun e => absurd hx (Nat.not_lt.mpr (e ▸ hg))
  obtain ⟨h1, h2, h3⟩ := hm
  cases ins
  case send x o k =>
    refine ⟨fun _ => ⟨⟨h1, h2, h3⟩, fun _ _ => rfl⟩, fun _ => ⟨⟨fun g hg => ?_, fun g hg => ?_,
      fun g hg => ?_⟩, fun g hg => ?_⟩⟩
    · by_cases hx : g = x
      · subst hx
        change update m.outcome g (some o) g = none at hg
        rw [update_self] at hg
        cases hg
      · change update m.outcome x (some o) g = none at hg
        rw [update_of_ne hx] at hg
        exact (update_of_ne hx _ _).trans (h1 g hg)
    · by_cases hx : g = x
      · subst hx
        show update m.version g _ g = 1
        rw [update_self, h1 g hi.2.1]
      · change update m.outcome x (some o) g ≠ none at hg
        rw [update_of_ne hx] at hg
        exact (update_of_ne hx _ _).trans (h2 g hg)
    · exact ⟨(update_of_ne (other hi.1 hg) _ _).trans (h3 g hg).1, (h3 g hg).2⟩
    · exact update_of_ne (fun e => hg (by rw [e]; exact hi.2)) _ _
  case dropSender x k =>
    refine ⟨⟨h1, h2, fun g hg => ⟨(h3 g hg).1, ?_⟩⟩, fun _ _ => rfl⟩
    exact (update_of_ne (other hi hg) _ _).trans (h3 g hg).2
  case newEntry i site k =>
    exact ⟨⟨h1, h2, fun g hg => h3 g (Nat.le_of_succ_le hg)⟩, fun _ _ => rfl⟩
  all_goals
    repeat' first
      | exact trivial
      | exact ⟨h1, h2, h3⟩
      | exact fun _ _ => rfl
      | apply And.intro
      | intro _

omit [DecidableEq R] [DecidableEq K] in
theorem sends_of_known (hk : p.Known m) (hp : p.Unsent m) : p.code.Sends m := by
  cases p using Pc.points
  case acquire_create_dropSender_none | acquire_create_dropSender_some => exact hk.1.1
  case supervise_dropSender => exact hk.1.1
  case supervise_publish => exact ⟨hk.1.1, hp⟩
  all_goals trivial

theorem unsent_run (hm : m.Channels) (hp : p.Unsent m) :
    p.code.wp cfg t m fun m' p' c => p'.Unsent m' ∧ ForSome (Pc.Unsent m') c := by
  cases p using Pc.points
  case' supervise_finalize_lock exit | supervise_finalize_remove exit
    | supervise_finalize_accepting exit | supervise_finalize_isEmpty exit
    | supervise_finalize_storeTerminated exit | supervise_finalize_dropSupervisor_false exit
    | supervise_finalize_dropSupervisor_true exit | supervise_finalize_notify exit
    | supervise_dropSender exit => cases exit
  case acquire_create_newEntry => exact ⟨hm.fresh _ (Nat.le_refl _), trivial⟩
  case acquire_guard_remove_entry | supervise_cleanup_entry =>
    refine ⟨⟨hp, trivial⟩, fun _ => ⟨fun _ _ => ?_, fun _ => ⟨hp, trivial⟩⟩⟩
    dsimp only
    split <;> exact ⟨hp, trivial⟩
  all_goals
    repeat' first
      | exact trivial
      | exact hp
      | apply And.intro
      | intro _

omit [DecidableEq R] [DecidableEq K] in
theorem Pc.Unsent.stable (h : p.Unsent m) (ho : ∀ g, 0 < p.charge g → Own g m m') : p.Unsent m' := by
  have keep {g : GenId} (hg : m.Open g) (hc : 0 < p.charge g) : m'.Open g :=
    ⟨(ho g hc).outcome.trans hg.1, (ho g hc).closed.trans hg.2⟩
  unfold Pc.Unsent at *
  split <;> simp only at h
  case h_1 q site p =>
    cases hg : p.gen? with
    | none => trivial
    | some g =>
      rw [hg] at h
      refine keep h ?_
      show 0 < isGen g p.gen?
      rw [hg]
      exact isGen_pos g
  case h_6 => exact keep h (isGen_pos _)
  all_goals trivial

/-- The channels of a domain, with what the threads that have a sender know of them. -/
theorem channels_of_reach {ok : State R K E → Action R K E → Prop}
    (hr : Reach (Resourcery.step cfg) ok State.new s) :
    s.mem.Channels ∧ ∀ u, (s.pc u).Unsent s.mem := by
  refine hr.invariant_of_reach (fun s => s.mem.Channels ∧ ∀ u, (s.pc u).Unsent s.mem)
    ⟨⟨fun _ _ => rfl, fun _ h => absurd rfl h, fun _ _ => ⟨rfl, rfl⟩⟩, fun _ => trivial⟩ ?_
  rintro s a s' hs ⟨hG, hA⟩ - h
  have hk := (known_of_reach hs).2
  have hx := charge_of_reach hs
  have hf := fresh_of_reach hs
  refine inv_step Memory.Channels (fun m _ p => p.Unsent m) h hG hA ?_ ?_ ?_ ?_ ?_ ?_
  · refine fun _ u hu => (hA u).stable fun g hg => own_step h hx ?_ hg hu
    refine lt_size_of_ne_idle hf fun e => ?_
    rw [e] at hg
    exact absurd hg (Nat.lt_irrefl 0)
  · rintro t p - rfl - hp
    refine ((wp_channels (sends_of_known (hk t) hp) hG).and (unsent_run hG hp)).mono ?_
    exact fun _ _ _ h => ⟨⟨h.1.1, h.2.1⟩, h.2.2⟩
  · rintro t p p' hj - - hp
    cases hj <;> exact hp
  · rintro c m p - hc
    cases hc <;> exact ⟨⟨hG.empty, hG.full, hG.fresh⟩, trivial⟩
  · exact fun _ _ _ => ⟨hG.empty, hG.full, hG.fresh⟩
  · rintro m c hh
    cases hh <;> exact ⟨⟨hG.empty, hG.full, hG.fresh⟩, trivial⟩

/-- What a channel that is not open holds stays, through every step. -/
theorem sealed_step {ok : State R K E → Action R K E → Prop}
    (hs : Reach (Resourcery.step cfg) ok State.new s) (h : Resourcery.step cfg s a = some s') :
    Sealed s.mem s'.mem := by
  obtain ⟨hG, hA⟩ := channels_of_reach hs
  refine mem_step (Sealed s.mem) h (fun _ _ => rfl) ?_ ?_ (fun _ _ _ _ _ => rfl) ?_
  · rintro t p - rfl -
    exact (wp_channels (sends_of_known ((known_of_reach hs).2 t) (hA t)) hG).mono fun _ _ _ h => h.2
  · rintro c m p - hc
    cases hc <;> exact fun _ _ => rfl
  · rintro m c hh
    cases hh <;> exact fun _ _ => rfl

end

/-! ## Observers -/

/-- The outcome of `g` is decided: it has been sent, or the sender is gone and it is `Aborted`. -/
def Memory.Decided (m : Memory R K E) (g : GenId) (o : ResourceOutcome E) : Prop :=
  m.outcome g = some o ∨ m.outcome g = none ∧ m.closed g = true ∧ o = .aborted

theorem Memory.Decided.not_open {o : ResourceOutcome E} (h : m.Decided g o) : ¬ m.Open g := by
  rintro ⟨hn, hc⟩
  rcases h with h | ⟨-, h, -⟩
  · rw [hn] at h
    cases h
  · rw [hc] at h
    cases h

theorem Memory.Decided.eq {o o' : ResourceOutcome E} (h : m.Decided g o) (h' : m.Decided g o') :
    o = o' := by
  rcases h with h | ⟨hn, -, rfl⟩ <;> rcases h' with h' | ⟨hn', -, rfl⟩
  · exact Option.some.inj (h.symm.trans h')
  · exact nomatch h.symm.trans hn'
  · exact nomatch h'.symm.trans hn
  · rfl

theorem Memory.Decided.stable {o : ResourceOutcome E} (h : m.Decided g o) (hs : Sealed m m')
    (hg : Grows m m') : m'.Decided g o := by
  have he := hs g h.not_open
  exact h.imp he.trans fun h => ⟨he.trans h.1, hg.closed g h.2.1, h.2.2⟩

/-- What an observer that waits knows of the channel. -/
def ResourceCompletion.WaitPc.Watches (m : Memory R K E) (g : GenId) : WaitPc E → Prop
  | .borrow seen => seen ≤ m.version g
  | .changed seen => seen = 0
  | .dropReceiver (some o) | .returned o => m.Decided g o
  | .dropReceiver none | .dropped => True

def Pc.Watches (m : Memory R K E) : Pc R K E → Prop
  | .wait g p => p.Watches m g
  | _ => True

theorem Pc.Watches.stable (h : p.Watches m) (hs : Sealed m m') (hg : Grows m m') :
    p.Watches m' := by
  cases p
  case wait x p =>
    cases p
    case borrow => exact (show _ ≤ _ from h).trans (hg.version x)
    case changed => exact h
    case dropReceiver result =>
      cases result with
      | none => trivial
      | some o => exact Memory.Decided.stable h hs hg
    case returned => exact Memory.Decided.stable h hs hg
    case dropped => trivial
  all_goals trivial

/-- The thread waits for the outcome of `g`, or has it. -/
def Pc.Observes (g : GenId) : Pc R K E → Prop
  | .wait _ .dropped => False
  | .wait x _ => x = g
  | _ => False

/-- The outcome of `g` has not been sent, and nobody will ever receive one. -/
structure Lost (s : State R K E) (g : GenId) : Prop where
  created : g < s.mem.nextGen
  receivers : s.mem.receivers g = 0
  outcome : s.mem.outcome g = none
  unobserved : ∀ u, ¬ (s.pc u).Observes g

section

variable [DecidableEq R] [DecidableEq K]

theorem watches_run (hm : m.Channels) (hp : p.Watches m) :
    p.code.wp cfg t m fun m' p' c => p'.Watches m' ∧ ForSome (Pc.Watches m') c := by
  cases p using Pc.points
  case wait_borrow g seen =>
    refine ⟨fun hn => ⟨?_, trivial⟩, fun o ho => ⟨.inl ho, trivial⟩⟩
    exact Nat.le_zero.mp ((show seen ≤ m.version g from hp).trans_eq (hm.empty g hn))
  case wait_changed g seen =>
    refine ⟨fun _ => ⟨Nat.le_refl _, trivial⟩, fun hv hc => ⟨.inr ⟨?_, hc, rfl⟩, trivial⟩⟩
    by_contra ho
    exact nomatch (hm.full g ho).symm.trans (hv.trans hp)
  case acquire_guard_remove_entry | supervise_cleanup_entry =>
    refine ⟨⟨hp, trivial⟩, fun _ => ⟨fun _ _ => ?_, fun _ => ⟨hp, trivial⟩⟩⟩
    dsimp only
    split <;> exact ⟨hp, trivial⟩
  all_goals
    repeat' first
      | exact trivial
      | exact hp
      | apply And.intro
      | intro _

theorem watches_of_reach {ok : State R K E → Action R K E → Prop}
    (hr : Reach (Resourcery.step cfg) ok State.new s) (u : Tid) : (s.pc u).Watches s.mem := by
  revert u
  refine hr.invariant_of_reach (fun s => ∀ u, (s.pc u).Watches s.mem) (fun _ => trivial) ?_
  intro s a s' hs ih _ h
  refine forall_pc_step (fun m _ p => p.Watches m) h ih
    (fun u _ => (ih u).stable (sealed_step hs h) (grows_step h)) ?_ ?_ ?_ ?_
  · exact fun t p _ _ _ hp => watches_run (channels_of_reach hs).1 hp
  · rintro t p p' hj - - -
    cases hj <;> trivial
  · rintro c m p rfl hc
    cases hc
    case finished | wait => exact Nat.zero_le _
    all_goals trivial
  · rintro m c hh
    cases hh
    trivial

/-! ### An outcome nobody has received -/

theorem wp_observes (hp : ¬ p.Observes g) : p.code.wp cfg t m fun _ p' c =>
    ¬ p'.Observes g ∧ ForSome (fun c => ¬ c.Observes g) c := by
  cases p using Pc.points
  case acquire_guard_remove_entry | supervise_cleanup_entry =>
    refine ⟨⟨id, trivial⟩, fun _ => ⟨fun _ _ => ?_, fun _ => ⟨id, trivial⟩⟩⟩
    dsimp only
    split <;> exact ⟨id, trivial⟩
  all_goals
    repeat' first
      | exact trivial
      | exact hp
      | exact id
      | apply And.intro
      | intro _

theorem wp_unsent {α : Type} (ins : Instr R K E α) (h0 : m.receivers g = 0)
    (hn : m.outcome g = none) : ins.wp cfg t m fun m' _ _ => m'.outcome g = none := by
  cases ins
  case send x o k =>
    refine ⟨fun _ => hn, fun hx => ?_⟩
    exact (update_of_ne (fun e => hx (by rw [← e]; exact h0)) _ _).trans hn
  all_goals
    repeat' first
      | exact trivial
      | apply And.intro
      | intro _
      | exact hn

theorem lost_step {ok : State R K E → Action R K E → Prop}
    (hs : Reach (Resourcery.step cfg) ok State.new s) (h : Resourcery.step cfg s a = some s')
    (hl : Lost s g) : Lost s' g := by
  have hw := watched_of_reach hs
  have hun := hw.unobserved h (counted_of_reach hs)
  have hold {y : GenId} (hy : y = g) : ¬ 0 < s.mem.receivers y := by
    rw [hy, hl.receivers]
    exact Nat.lt_irrefl 0
  refine ⟨hl.created.trans_le hun.1, ?_, ?_, ?_⟩
  · refine (hun.2 g hl.receivers).resolve_right fun he => ?_
    exact absurd hl.created (by rw [he.1]; exact Nat.lt_irrefl _)
  · refine mem_step (fun m => m.outcome g = none) h hl.outcome ?_ ?_ (fun _ _ _ => hl.outcome) ?_
    · exact fun t p _ _ _ => wp_unsent _ hl.receivers hl.outcome
    · rintro c m p - hc
      cases hc <;> exact hl.outcome
    · rintro m c hh
      cases hh <;> exact hl.outcome
  · refine forall_pc_step (fun _ _ p => ¬ p.Observes g) h hl.unobserved
      (fun u _ => hl.unobserved u) (fun _ _ _ _ _ hp => wp_observes hp) ?_ ?_ ?_
    · rintro t p p' hj - - hp
      cases hj <;> exact hp
    · rintro c m p - hc
      cases hc
      case finished hm _ =>
        exact fun hx => hold hx (hw.pos_of_strong ((counted_of_reach hs).pos_of_mem hm))
      case wait hp => exact fun hx => hold hx (hw.pos_of_completion hp)
      all_goals exact id
    · rintro m c hh
      cases hh
      exact id

theorem wp_result {α : Type} {ins : Instr R K E α} {r : JoinResult E} (hi : ins.Spawning m)
    (he : m.task g = .ended r) : ins.wp cfg t m fun m' _ _ => m'.task g = .ended r := by
  cases ins
  case spawnTask x k =>
    have hne : g ≠ x := by
      rintro rfl
      exact nomatch hi.symm.trans he
    exact (update_of_ne hne _ _).trans he
  all_goals
    repeat' first
      | exact trivial
      | apply And.intro
      | intro _
      | exact he

/-- How a task has ended stays. -/
theorem result_step {r : JoinResult E} (h : Resourcery.step cfg s a = some s')
    (hk : ∀ u, (s.pc u).Known s.mem) (he : s.mem.task g = .ended r) :
    s'.mem.task g = .ended r := by
  refine mem_step (fun m => m.task g = .ended r) h he ?_ ?_ ?_ ?_
  · rintro t p - rfl -
    exact wp_result (spawning_of_known (hk t)) he
  · rintro c m p - hc
    cases hc <;> exact he
  · intro x st ht
    have hne : g ≠ x := by
      rintro rfl
      have := ht.not_ended
      rw [he] at this
      cases this
    exact (update_of_ne hne _ _).trans he
  · rintro m c hh
    cases hh <;> exact he

end

/-! ## What the supervising future publishes -/

/-- The supervising future has taken its publication step. -/
def ResourceContext.SupervisePc.published : SupervisePc E → Bool
  | .removeLive | .finalize .ran _ | .dropSender .ran | .ended .ran => true
  | _ => false

/-- What a supervising future has to say of the end of its task: before it publishes its outcome,
and once it has, unless there was nobody left to receive it, `L`. -/
def ResourceContext.SupervisePc.Tells (m : Memory R K E) (L : Prop) (g : GenId) :
    SupervisePc E → Prop
  | .finish result => m.task g = .ended result
  | .cleanup _ outcome _ | .publish outcome _ =>
    ∃ result, m.task g = .ended result ∧ result.outcome = outcome
  | .removeLive | .finalize .ran _ | .dropSender .ran | .ended .ran =>
    ∃ result, m.task g = .ended result ∧ (m.outcome g = some result.outcome ∨ L)
  | _ => True

def Pc.Tells (m : Memory R K E) (L : GenId → Prop) : Pc R K E → Prop
  | .supervise _ g _ _ p => p.Tells m (L g) g
  | _ => True

theorem Pc.Tells.stable {L L' : GenId → Prop} (h : p.Tells m L)
    (hr : ∀ g r, m.task g = .ended r → m'.task g = .ended r)
    (ho : ∀ g, m.outcome g ≠ none → m'.outcome g = m.outcome g) (hL : ∀ g, L g → L' g) :
    p.Tells m' L' := by
  have told {g : GenId} (h : ∃ result, m.task g = .ended result ∧
      (m.outcome g = some result.outcome ∨ L g)) : ∃ result, m'.task g = .ended result ∧
      (m'.outcome g = some result.outcome ∨ L' g) := by
    obtain ⟨result, he, h⟩ := h
    refine ⟨result, hr g _ he, h.imp (fun h => ?_) (hL g)⟩
    exact (ho g (by rw [h]; exact nofun)).trans h
  cases p
  case supervise i g id site p =>
    cases p
    case finish => exact hr g _ h
    case cleanup | publish =>
      obtain ⟨result, he, h⟩ := h
      exact ⟨result, hr g _ he, h⟩
    case removeLive => exact told h
    case finalize exit _ | dropSender exit | ended exit =>
      cases exit
      case ran => exact told h
      all_goals trivial
    all_goals trivial
  all_goals trivial

/-- The generation whose outcome an instruction sends. -/
def Instr.sends? {α : Type} : Instr R K E α → Option GenId
  | .send g _ _ => some g
  | _ => none

/-- An event in which the outcome of `g` is sent. -/
def Publishes (g : GenId) (e : State R K E × Action R K E) : Prop :=
  ∃ t ∈ e.2.runner?, (e.1.pc t).code.sends? = some g

instance (g : GenId) (e : State R K E × Action R K E) : Decidable (Publishes g e) :=
  inferInstanceAs (Decidable (∃ t ∈ e.2.runner?, (e.1.pc t).code.sends? = some g))

/-- An outcome is sent by the supervising future, in its publication step. -/
theorem publish_of_code (h : p.code.sends? = some g) :
    ∃ i id site o b, p = .supervise i g id site (.publish o b) := by
  revert h
  cases p using Pc.points
  all_goals
    intro h
    cases h
  all_goals exact ⟨_, _, _, _, _, rfl⟩

section

variable [DecidableEq R] [DecidableEq K]

theorem tells_run {L : GenId → Prop} {i : Ident R K} {id : ℕ} {site : Option Site}
    {p : SupervisePc E} (hp : p.Tells m (L g) g)
    (hlost : ∀ o b, p = .publish o b → m.receivers g = 0 → L g) :
    (Pc.supervise i g id site p).code.wp cfg t m fun m' p' _ => p'.Tells m' L := by
  cases_type* SupervisePc Registry.RemovePc Domain.FinishedPc Exit
  case' finish => cases site
  case' finalize.ran.dropSupervisor x | finalize.unwound.dropSupervisor x
    | finalize.dropped.dropSupervisor x | cleanup.dropState x => cases x
  case cleanup.entry =>
    refine ⟨hp, fun _ => ⟨fun _ _ => ?_, fun _ => hp⟩⟩
    dsimp only
    split <;> exact hp
  case join => exact fun _ h => h
  case finish.none | finish.some => exact ⟨_, hp, rfl⟩
  case publish o b =>
    obtain ⟨result, he, rfl⟩ := hp
    exact ⟨fun h0 => ⟨result, he, .inr (hlost _ _ rfl h0)⟩,
      fun _ => ⟨result, he, .inl (update_self _ _ _)⟩⟩
  all_goals
    repeat' first
      | exact trivial
      | exact hp
      | apply And.intro
      | intro _

/-- A channel that its supervising future is about to publish to and that has no receiver is
lost. -/
theorem lost_of_publish {ok : State R K E → Action R K E → Prop} {i : Ident R K} {id : ℕ}
    {site : Option Site} {o : ResourceOutcome E} {b : Bool}
    (hs : Reach (Resourcery.step cfg) ok State.new s)
    (hp : s.pc t = .supervise i g id site (.publish o b)) (h0 : s.mem.receivers g = 0) :
    Lost s g := by
  have hopen : s.mem.Open g := by
    have := (channels_of_reach hs).2 t
    rw [hp] at this
    exact this
  have hlt : g < s.mem.nextGen := by
    have := (known_of_reach hs).2 t
    rw [hp] at this
    exact this.1.1
  refine ⟨hlt, h0, hopen.1, fun u hu => ?_⟩
  have hf := fresh_of_reach hs
  have hw := watched_of_reach hs
  have hwatch := watches_of_reach hs u
  cases hq : s.pc u <;> rw [hq] at hu hwatch <;> try exact hu
  case wait x w =>
    have hle := hw.receives_le (lt_size_of_ne_idle hf (by rw [hq]; exact nofun) : u < s.size) g
    rw [hq, h0] at hle
    cases w
    case returned o' =>
      obtain rfl : x = g := hu
      exact Memory.Decided.not_open hwatch hopen
    case dropped => exact hu
    all_goals
      obtain rfl : x = g := hu
      exact absurd hle (Nat.not_le.mpr (isGen_pos x))

theorem tells_of_reach {ok : State R K E → Action R K E → Prop}
    (hr : Reach (Resourcery.step cfg) ok State.new s) (u : Tid) :
    (s.pc u).Tells s.mem (Lost s) := by
  revert u
  refine hr.invariant_of_reach (fun s => ∀ u, (s.pc u).Tells s.mem (Lost s)) (fun _ => trivial) ?_
  intro s a s' hs ih _ h
  have hk := (known_of_reach hs).2
  have hlost (g : GenId) : Lost s g → Lost s' g := lost_step hs h
  have hkeep (u : Tid) : (s.pc u).Tells s.mem (Lost s') :=
    (ih u).stable (fun _ _ h => h) (fun _ _ => rfl) hlost
  refine forall_supervise_step (fun m p => p.Tells m (Lost s')) ?_ h hkeep ?_ ?_ ?_ ?_
  · intro m p hp
    cases p
    case supervise => cases hp
    all_goals trivial
  · exact fun u _ => (ih u).stable (fun _ _ => result_step h hk)
      (fun g hg => sealed_step hs h g fun ho => hg ho.1) hlost
  · exact fun _ _ _ _ _ _ => trivial
  · rintro t i g id site p - hp hA
    exact tells_run hA fun o b e h0 => hlost g (lost_of_publish hs (e ▸ hp) h0)
  · rintro t p p' hj - - hA
    cases hj <;> trivial

/-! ### Once -/

theorem published_run {i : Ident R K} {id : ℕ} {site : Option Site} {p : SupervisePc E}
    (hp : p.published = true) : (Pc.supervise i g id site p).code.wp cfg t m fun _ p' _ =>
      ∃ q, p' = .supervise i g id site q ∧ q.published = true := by
  cases_type* SupervisePc Domain.FinishedPc Exit
  case' finalize.ran.dropSupervisor x => cases x
  case removeLive => exact ⟨_, rfl, rfl⟩
  case dropSender.ran => exact ⟨_, rfl, rfl⟩
  all_goals
    repeat' first
      | exact trivial
      | apply And.intro
      | intro _
      | exact ⟨_, rfl, rfl⟩
      | cases hp

/-- A supervising future that has published does not do so again. -/
theorem published_step {i : Ident R K} {id : ℕ} {site : Option Site} {p : SupervisePc E}
    (hf : Pool.Fresh .idle s) (h : Resourcery.step cfg s a = some s')
    (hv : s.pc v = .supervise i g id site p) (hp : p.published = true) :
    ∃ q, s'.pc v = .supervise i g id site q ∧ q.published = true := by
  rcases thread_cases h hf v with he | ⟨ch, mv, -, -, he, -, hq⟩ | ⟨hj, -⟩ | ⟨hi, -⟩
  · exact ⟨p, he.trans hv, hp⟩
  · rw [hv] at he
    rw [hq]
    exact (published_run hp).sound he
  · rw [hv] at hj
    generalize s'.pc v = q at hj
    cases hj <;> cases hp
  · exact nomatch hi.symm.trans hv

theorem publish_run {i : Ident R K} {id : ℕ} {site : Option Site} {o : ResourceOutcome E}
    {b : Bool} : (Pc.supervise i g id site (.publish o b)).code.wp cfg t m fun _ p' _ =>
      p' = .supervise i g id site .removeLive :=
  ⟨fun _ => rfl, fun _ => rfl⟩

theorem published_of_happened {ok : State R K E → Action R K E → Prop}
    {es : List (State R K E × Action R K E)}
    (hs : History (Resourcery.step cfg) ok State.new es s) (hp : Happened (Publishes g) es) :
    ∃ v i id site p, s.pc v = .supervise i g id site p ∧ p.published = true := by
  induction hs with
  | start => exact absurd hp (not_happened_nil _)
  | @next es s s' a hs ha h ih =>
    have hf := fresh_of_reach hs.reach
    rcases happened_cons.mp hp with ⟨t, ht, hsend⟩ | hp
    · obtain ⟨ch, rfl⟩ := run_of_runner ht
      obtain ⟨i, id, site, o, b, hq⟩ := publish_of_code hsend
      obtain ⟨_, hq⟩ := pc_of_run h (by rw [hq]; exact publish_run)
      exact ⟨t, i, id, site, _, hq, rfl⟩
    · obtain ⟨v, i, id, site, p, hv, hp⟩ := ih hp
      obtain ⟨q, hv', hq⟩ := published_step hf h hv hp
      exact ⟨v, i, id, site, q, hv', hq⟩

/-- **One stable outcome.** For every generation, in every run: the outcome is published at most
once; all observers that have returned have the same outcome; nobody has returned while the
supervising future is still to take its publication step, and once it has taken it the outcome is
the image of how the task has ended, a panic without a message being given one. -/
theorem outcome_is_stable {es : List (State R K E × Action R K E)}
    (hs : History (Resourcery.step cfg) (fun _ _ => True) State.new es s) (g : GenId) :
    es.Pairwise (fun e e' => ¬ (Publishes g e ∧ Publishes g e')) ∧
    (∀ t u o o', s.pc t = .wait g (.returned o) → s.pc u = .wait g (.returned o') → o = o') ∧
    (∀ v, (s.pc v).code.sends? = some g → ∀ u o, s.pc u ≠ .wait g (.returned o)) ∧
    (Happened (Publishes g) es → ∃ result, s.mem.task g = .ended result ∧
      ∀ u o, s.pc u = .wait g (.returned o) → match result with
        | .ok => o = .completed
        | .err error => o = .failed error
        | .panicked (.str message) | .panicked (.string message) => o = .panicked message
        | .panicked .other => o = .panicked "resource task panicked"
        | .cancelled => o = .aborted) := by
  have decided {u : Tid} {o : ResourceOutcome E} (hu : s.pc u = .wait g (.returned o)) :
      s.mem.Decided g o := by
    have := watches_of_reach hs.reach u
    rw [hu] at this
    exact this
  refine ⟨?_, fun t u o o' ht hu => (decided ht).eq (decided hu), fun v hv u o hu => ?_,
    fun hpub => ?_⟩
  · clear decided
    induction hs with
    | start => exact .nil
    | @next es s s' a hs ha h ih =>
      refine List.pairwise_cons.mpr ⟨?_, ih⟩
      rintro e he ⟨⟨t, -, ht⟩, hpub⟩
      obtain ⟨v, i, id, site, p, hv, hp⟩ := published_of_happened hs ⟨e, he, hpub⟩
      obtain ⟨j, id', site', o, b, hq⟩ := publish_of_code ht
      have hf := fresh_of_reach hs.reach
      have htv := (charge_of_reach hs.reach).eq
        (lt_size_of_ne_idle hf (by rw [hq]; exact nofun))
        (lt_size_of_ne_idle hf (by rw [hv]; exact nofun))
        (by rw [hq]; exact isGen_pos _) (by rw [hv]; exact isGen_pos _)
      rw [htv, hv] at hq
      cases hq
      cases hp
  · obtain ⟨i, id, site, o, b, hq⟩ := publish_of_code hv
    have hopen := (channels_of_reach hs.reach).2 v
    rw [hq] at hopen
    exact (decided hu).not_open hopen
  · obtain ⟨v, i, id, site, p, hv, hp⟩ := published_of_happened hs hpub
    have htell := tells_of_reach hs.reach v
    rw [hv] at htell
    obtain ⟨result, he, htell⟩ : ∃ result, s.mem.task g = .ended result ∧
        (s.mem.outcome g = some result.outcome ∨ Lost s g) := by
      cases p
      case finalize exit _ | dropSender exit | ended exit =>
        cases exit
        case ran => exact htell
        all_goals cases hp
      case removeLive => exact htell
      all_goals cases hp
    refine ⟨result, he, fun u o hu => ?_⟩
    have himage : o = result.outcome := by
      rcases htell with ho | hl
      · exact (decided hu).eq (.inl ho)
      · refine absurd ?_ (hl.unobserved u)
        rw [hu]
        exact rfl
    cases result with
    | panicked payload => cases payload <;> exact himage
    | _ => exact himage

end

/-- A unique generation whose task completes, with an observer that has waited for it. -/
def completedRun : List (Action Unit Unit Unit) :=
  .call (.acquire ⟨.spawn, ⟨(), ()⟩⟩) :: List.replicate 14 (.run 0 .go) ++
    [.call (.finished .outside 0), .poll 0, .gate 0, .finish 0 .ok] ++
    List.replicate 4 (.run 1 .go) ++ List.replicate 2 (.run 2 .go)

theorem completedRun_outcome :
    ∃ o, ((afterwards false completedRun).get (by decide +kernel)).pc 2 = .wait 0 (.returned o) ∧
      o = .completed := by
  have hs : History (step (.single false)) (fun _ _ => True) State.new
      (events (step (.single false)) [] State.new completedRun)
      ((afterwards false completedRun).get (by decide +kernel)) :=
    history_exec (P := fun _ => True) (fun _ _ h => h) (fun _ _ => trivial) _
  obtain ⟨result, hended, himage⟩ := (outcome_is_stable hs 0).2.2.2 (by decide +kernel)
  have hok : ((afterwards false completedRun).get (by decide +kernel)).mem.task 0 = .ended .ok := by
    decide +kernel
  have hret : ((afterwards false completedRun).get (by decide +kernel)).pc 2 =
      .wait 0 (.returned .completed) := by decide +kernel
  cases hok.symm.trans hended
  exact ⟨_, hret, himage 2 _ hret⟩

end Resourcery
