import Resourcery.Proof.Destruction
import Resourcery.Proof.Shutdown

/-!
# Cancellation

`Control::cancel` runs in three places: in the destructor of an entry, in the loop of the domain's
`cancel`, and when a registration has failed. Between the exchange of the phase and the
cancellation of the token a thread owes the token (`Pc.owes`); at most one does, and the token is
cancelled at most once.
-/

namespace Resourcery

open Interleaving Function Transition ResourceContext

variable {R K E : Type}

/-! ## The places -/

/-- The generation whose control a thread is cancelling, and how far it has come. -/
def Pc.cancelling? : Pc R K E → Option (GenId × Control.CancelPc)
  | .acquire _ (.create _ (.cancel g p)) | .drop g (.cancel p) | .cancel (.control g _ p)
  | .shutdown (.cancel (.control g _ p)) | .terminate (.cancel (.control g _ p))
  | .terminate (.shutdown (.cancel (.control g _ p))) => some (g, p)
  | _ => none

/-- Why a thread cancels the control of `g`: its registration has failed, nobody holds it, or the
domain has stopped. -/
inductive Cause (m : Memory R K E) (g : GenId) : Pc R K E → Prop
  | failed {q : Request R K} {site : Option Site} {p : Control.CancelPc}
      (known : m.taskId g = none) :
      Cause m g (.acquire q (.create site (.cancel g p)))
  | dropped {p : Control.CancelPc} (none : m.strong g = 0) : Cause m g (.drop g (.cancel p))
  | stopped {p : Pc R K E} (stopped : m.Stopped) (known : m.taskId g ≠ none) : Cause m g p

variable {cfg : Config R K} {t : Tid} {m m' : Memory R K E} {p : Pc R K E} {g x : GenId}

theorem cause_of_cancelling {q : Control.CancelPc} (h : p.cancelling? = some (g, q))
    (hk : p.Known m) (hp : p.Past m) : Cause m g p := by
  unfold Pc.cancelling? at h
  split at h <;> cases h
  · exact .failed hk.2
  · exact .dropped hk.2
  all_goals exact .stopped hp (hk _ List.mem_cons_self)

/-- The control an instruction of `Control::cancel` writes to. -/
def Instr.cancels? {α : Type} : Instr R K E α → Option GenId
  | .exchangeCancelling g _ _ | .cancelToken g _ => some g
  | _ => none

theorem cancelling_of_code (h : p.code.cancels? = some g) : ∃ q, p.cancelling? = some (g, q) := by
  revert h
  cases p using Pc.points
  all_goals
    intro h
    cases h
  all_goals
    exact ⟨_, rfl⟩

/-! ## The control of a generation that is being created -/

variable [DecidableEq R] [DecidableEq K]

/-- The control of `g` is written by the thread in charge and by those that cancel it. -/
theorem wp_control {α : Type} {ins : Instr R K E α} (h : ins.charged? ≠ some g)
    (h' : ins.cancels? ≠ some g) : ins.wp cfg t m fun m' _ _ => m'.control g = m.control g := by
  have ne {x : GenId} (hx : some x ≠ some g) : g ≠ x := fun e => hx (congrArg some e.symm)
  cases ins
  case exchangeActive x k => exact ⟨fun _ => update_of_ne (ne h) _ _, fun _ => rfl⟩
  case storeFinished x k => exact update_of_ne (ne h) _ _
  case exchangeCancelling x current k =>
    exact ⟨fun _ => update_of_ne (ne h') _ _, fun _ => rfl, fun _ => rfl, fun _ => rfl,
      fun _ => rfl⟩
  all_goals
    repeat' first
      | exact trivial
      | exact rfl
      | apply And.intro
      | intro _

/-- Before its registration nobody but its creator, who holds it, writes to the control of a
generation. -/
theorem control_step {ok : State R K E → Action R K E → Prop} {s s' : State R K E}
    {a : Action R K E} {u : Tid} (hs : Reach (step cfg) ok State.new s)
    (h : step cfg s a = some s') (hu : 0 < (s.pc u).charge g) (hh : 0 < (s.pc u).held g)
    (hg : s.mem.taskId g = none) (ha : a.actor ≠ some u) :
    s'.mem.control g = s.mem.control g := by
  have hsize : u < s.size :=
    lt_size_of_ne_idle (fresh_of_reach hs) fun e => by rw [e] at hu; exact Nat.lt_irrefl _ hu
  have hcharge := charge_of_reach hs
  refine mem_step (fun m => m.control g = s.mem.control g) h rfl ?_ ?_ ?_ ?_
  · rintro t p hat rfl hr
    have hne : t ≠ u := fun e => ha (e ▸ hat)
    refine wp_control (fun hc => hne (hcharge.eq hr.1 hsize (charge_of_code hc) hu)) fun hc => ?_
    obtain ⟨q, hq⟩ := cancelling_of_code hc
    have hcause := cause_of_cancelling hq ((known_of_reach hs).2 t) ((past_of_reach hs).2 t)
    generalize hp : s.pc t = p at hcause
    cases hcause
    case failed =>
      refine hne (hcharge.eq hr.1 hsize ?_ hu)
      rw [hp]
      exact isGen_pos g
    case dropped h0 =>
      have := (counted_of_reach hs).held_le hsize g
      omega
    case stopped hk => exact hk hg
  · rintro c m p - hc
    cases hc <;> rfl
  · exact fun _ _ _ => rfl
  · rintro m c hh
    cases hh <;> rfl

/-- The control of the generation a call of `create` has made. -/
def ResourceContext.CreatePc.Starts (m : Memory R K E) : CreatePc → Prop
  | .spawnTask g | .register g .accepting | .register g .lock | .register g .acceptingLocked
  | .register g .activate => m.control g = .starting
  | .register g .insert => m.control g = .active
  | .register _ (.dropSupervisor none) | .abort _ | .cancel .. | .dropStart _ | .dropEntry _
  | .dropSender _ => ¬ m.Accepting
  | _ => True

/-- What a creator knows of the control: until `register` activates it, it is starting, and a
registration fails only when the domain has stopped accepting. -/
def Pc.Starts (m : Memory R K E) : Pc R K E → Prop
  | .acquire _ (.create _ p) => p.Starts m
  | _ => True

omit [DecidableEq R] [DecidableEq K] in
theorem Pc.Starts.stable (h : p.Starts m) (hg : Grows m m')
    (hc : ∀ g, 0 < p.charge g → 0 < p.held g → m.taskId g = none → m'.control g = m.control g)
    (hk : p.Known m) : p.Starts m' := by
  have stays (ha : ¬ m.Accepting) : ¬ m'.Accepting := fun h => ha (hg.accepting h)
  unfold Pc.Starts at *
  split
  case h_1 q site p =>
    have pos (g : GenId) : 0 < one g g := by rw [one_self]; exact Nat.one_pos
    cases p
    case spawnTask g => exact (hc g (isGen_pos g) (pos g) hk.2.1).trans h
    case register g p =>
      cases p
      case dropSupervisor id =>
        cases id
        · exact stays h
        · trivial
      all_goals exact (hc g (isGen_pos g) (pos g) hk.2).trans h
    case accepting | build | newEntry | insertLive | spawnSupervisor => trivial
    all_goals exact stays h
  case h_2 => trivial

theorem starts_run (hm : Tables m) (hp : p.Starts m) :
    p.code.wp cfg t m fun m' p' c => p'.Starts m' ∧ ForSome (Pc.Starts m') c := by
  cases p using Pc.points
  case acquire_create_newEntry => exact ⟨(hm.fresh _ (Nat.le_refl _)).2.1, trivial⟩
  case acquire_create_register_accepting =>
    exact ⟨fun _ => ⟨hp, trivial⟩, fun h => ⟨h, trivial⟩⟩
  case acquire_create_register_acceptingLocked =>
    exact ⟨fun _ => ⟨hp, trivial⟩, fun h => ⟨h, trivial⟩⟩
  case acquire_create_register_activate =>
    exact ⟨fun _ => ⟨update_self _ _ _, trivial⟩, fun h => absurd hp h⟩
  case acquire_guard_remove_entry | supervise_cleanup_entry =>
    refine ⟨⟨trivial, trivial⟩, fun _ => ⟨fun _ _ => ?_, fun _ => ⟨trivial, trivial⟩⟩⟩
    dsimp only
    split <;> exact ⟨trivial, trivial⟩
  all_goals
    repeat' first
      | exact trivial
      | exact hp
      | apply And.intro
      | intro _

theorem starts_of_reach {ok : State R K E → Action R K E → Prop} {s : State R K E}
    (hr : Reach (step cfg) ok State.new s) (u : Tid) : (s.pc u).Starts s.mem := by
  revert u
  refine hr.invariant_of_reach (fun s => ∀ u, (s.pc u).Starts s.mem) (fun _ => trivial) ?_
  intro s a s' hs ih _ h
  obtain ⟨hm, hk⟩ := known_of_reach hs
  refine forall_pc_step (fun m _ p => p.Starts m) h ih (fun u hu => ?_) ?_ ?_ ?_ ?_
  · exact (ih u).stable (grows_step h)
      (fun g hc hh hg => control_step hs h hc hh hg hu) (hk u)
  · exact fun t p _ _ _ hp => starts_run hm hp
  · rintro t p p' hj - - -
    cases hj <;> trivial
  · rintro c m p rfl hc
    cases hc <;> trivial
  · rintro m c hh
    cases hh
    trivial

/-! ## The token -/

/-- Whether a thread at this point of `Control::cancel` for `x` owes `g` the cancellation of its
token: it has exchanged the phase and not yet cancelled the token. -/
def Control.CancelPc.owes (g x : GenId) : Control.CancelPc → ℕ
  | .token => isGen g (some x)
  | _ => 0

namespace Domain

@[inherit_doc Control.CancelPc.owes]
def CancelPc.owes (g : GenId) : CancelPc → ℕ
  | .control x _ p => p.owes g x
  | _ => 0

@[inherit_doc Control.CancelPc.owes]
def ShutdownPc.owes (g : GenId) : ShutdownPc → ℕ
  | .cancel p => p.owes g
  | _ => 0

@[inherit_doc Control.CancelPc.owes]
def TerminatePc.owes (g : GenId) : TerminatePc → ℕ
  | .cancel p => p.owes g
  | .shutdown p => p.owes g
  | _ => 0

end Domain

/-- Whether a thread owes `g` the cancellation of its token. -/
def Pc.owes (g : GenId) : Pc R K E → ℕ
  | .acquire _ (.create _ (.cancel x p)) | .drop x (.cancel p) => p.owes g x
  | .cancel p => p.owes g
  | .shutdown p => p.owes g
  | .terminate p => p.owes g
  | _ => 0

omit [DecidableEq R] [DecidableEq K] in
theorem cancelling_of_owes (h : 0 < p.owes g) : p.cancelling? = some (g, .token) := by
  cases_type* Pc AcquirePc CreatePc Domain.CancelPc Domain.ShutdownPc Domain.TerminatePc
    Control.CancelPc Entry.DropPc
  all_goals
    first
    | exact absurd h (Nat.lt_irrefl 0)
    | obtain rfl := eq_of_isGen h
      rfl

/-- From `m` to `m'` the threads' debt to `g` goes from `d` to `d'`: the exchange of the phase
incurs it, the cancellation of the token pays it. -/
def Spends (g : GenId) (m : Memory R K E) (d : ℕ) (m' : Memory R K E) (d' : ℕ) : Prop :=
  m'.control g = m.control g ∧ m'.cancels g = m.cancels g ∧ d' = d ∨
    (m.control g).rank < 2 ∧ m'.control g = .active ∧ m'.cancels g = m.cancels g ∧ d' = d ∨
    m'.control g = .finished ∧ m'.cancels g = m.cancels g ∧ d' = d ∨
    (m.control g).rank < 2 ∧ m'.control g = .cancelling ∧ m'.cancels g = m.cancels g ∧
      d' = d + 1 ∨
    m'.control g = m.control g ∧ m'.cancels g = m.cancels g + 1 ∧ d = d' + 1

section Operations

variable {α : Type} {Q : Memory R K E → α → Option α → Prop} {ret : α}

omit [DecidableEq R] [DecidableEq K] in
theorem Spends.refl (m : Memory R K E) (d : ℕ) : Spends g m d m d := .inl ⟨rfl, rfl, rfl⟩

omit [DecidableEq R] [DecidableEq K] in
theorem Control.cancelFrom_rule (P : α → Prop) {goto : CancelPc → α} (ph : Phase)
    (hgoto : ∀ current, P (goto (.exchange current))) (hret : P ret) :
    P (cancelFrom goto ret ph) := by
  unfold cancelFrom
  split
  · exact hgoto _
  · exact hret

theorem Control.wp_cancel_spends {goto : CancelPc → α} {q : CancelPc}
    (hgoto : ∀ m' q', Spends g m (q.owes g x) m' (q'.owes g x) → Q m' (goto q') none)
    (hret : ∀ m', Spends g m (q.owes g x) m' 0 → Q m' ret none) :
    (cancel x goto ret q).wp cfg t m Q := by
  cases q
  case load =>
    have hfrom (ph : Phase) : Q m (cancelFrom goto ret ph) none :=
      cancelFrom_rule (Q m · none) ph (fun _ => hgoto m _ (.refl m _)) (hret m (.refl m _))
    exact ⟨fun _ => hfrom _, fun _ => hfrom _, fun _ => hfrom _, fun _ => hfrom _⟩
  case exchange current =>
    have hfrom (ph : Phase) : Q m (cancelFrom goto ret ph) none :=
      cancelFrom_rule (Q m · none) ph (fun _ => hgoto m _ (.refl m _)) (hret m (.refl m _))
    refine ⟨fun h => hgoto _ _ ?_, fun _ => hfrom _, fun _ => hfrom _, fun _ => hfrom _,
      fun _ => hfrom _⟩
    by_cases hg : g = x
    · subst hg
      have hrank : (m.control g).rank < 2 := by
        rw [h]
        rcases current.2 with he | he <;> rw [he] <;> decide
      exact .inr (.inr (.inr (.inl ⟨hrank, update_self _ _ _, rfl, isGen_self g⟩)))
    · have h0 : isGen g (some x) = 0 := if_neg fun e => hg (Option.some.inj e).symm
      exact .inl ⟨update_of_ne hg _ _, rfl, h0⟩
  case token =>
    refine hret _ ?_
    by_cases hg : g = x
    · subst hg
      exact .inr (.inr (.inr (.inr ⟨rfl, update_self _ _ _, isGen_self g⟩)))
    · have h0 : isGen g (some x) = 0 := if_neg fun e => hg (Option.some.inj e).symm
      exact .inl ⟨rfl, update_of_ne hg _ _, h0.symm⟩

theorem Domain.wp_cancel_spends {goto : CancelPc → α} {q : CancelPc}
    (hgoto : ∀ m' q', Spends g m (q.owes g) m' (q'.owes g) → Q m' (goto q') none)
    (hret : ∀ m', Spends g m (q.owes g) m' 0 → Q m' ret none) :
    (cancel goto ret q).wp cfg t m Q := by
  cases q
  case control x rest p =>
    exact Control.wp_cancel_spends (fun m' q' h => hgoto _ _ h) fun m' h => hgoto _ _ h
  case next gs => exact ⟨fun _ => hret _ (.refl _ _), fun _ _ _ => hgoto _ _ (.refl _ _)⟩
  case lock => exact fun _ => hgoto _ _ (.inl ⟨rfl, rfl, rfl⟩)
  case exchange => exact ⟨fun _ => hgoto _ _ (.inl ⟨rfl, rfl, rfl⟩), fun _ => hgoto _ _ (.refl _ _)⟩
  case loadPhase =>
    exact ⟨fun _ => hgoto _ _ (.refl _ _), fun _ => hgoto _ _ (.refl _ _),
      fun _ => hgoto _ _ (.refl _ _)⟩
  case collect => exact ⟨fun _ => hgoto _ _ (.refl _ _), fun _ _ _ => hgoto _ _ (.refl _ _)⟩
  all_goals exact hgoto _ _ (.inl ⟨rfl, rfl, rfl⟩)

theorem Domain.wp_shutdown_spends {goto : ShutdownPc → α} {q : ShutdownPc}
    (hgoto : ∀ m' q', Spends g m (q.owes g) m' (q'.owes g) → Q m' (goto q') none) :
    (shutdown goto q).wp cfg t m Q := by
  cases q
  case cancel q =>
    exact wp_cancel_spends (fun m' q' => hgoto m' (.cancel q')) fun m' => hgoto m' .notified
  case loadPhase =>
    exact ⟨fun _ => hgoto _ _ (.refl _ _), fun _ => hgoto _ _ (.refl _ _),
      fun _ => hgoto _ _ (.refl _ _)⟩
  case notified => exact hgoto _ _ (.refl _ _)
  case wait => exact fun _ => hgoto _ _ (.refl _ _)
  all_goals trivial

end Operations

theorem wp_spends (g : GenId) :
    p.code.wp cfg t m fun m' p' c =>
      Spends g m (p.owes g) m' (p'.owes g + (c.map (Pc.owes g)).getD 0) := by
  cases p using Pc.operations
  case' acquire q p => cases q, p using AcquirePc.points
  case' supervise i x id site p => cases site, p using SupervisePc.points
  case acquire.create_cancel_load | acquire.create_cancel_exchange | acquire.create_cancel_token =>
    rw [Pc.code_createCancel]
    exact Control.wp_cancel_spends (fun _ _ h => h) fun _ h => h
  case drop_cancel_load | drop_cancel_exchange | drop_cancel_token =>
    rw [Pc.code_dropCancel]
    exact Control.wp_cancel_spends (fun _ _ h => h) fun _ h => h
  case cancel p => exact Domain.wp_cancel_spends (fun _ _ h => h) fun _ h => h
  case shutdown p => exact Domain.wp_shutdown_spends fun _ _ h => h
  case terminate_cancel p =>
    rw [Pc.code_terminateCancel]
    exact Domain.wp_cancel_spends (fun _ _ h => h) fun _ h => h
  case terminate_shutdown p =>
    rw [Pc.code_terminateShutdown]
    exact Domain.wp_shutdown_spends fun _ _ h => h
  case terminate_lock => exact fun _ => .inl ⟨rfl, rfl, rfl⟩
  case terminate_collect => exact ⟨fun _ => .refl _ _, fun _ _ _ => .refl _ _⟩
  case terminate_abort => exact ⟨fun _ => .refl _ _, fun _ _ _ => .refl _ _⟩
  case acquire.create_register_activate q site x =>
    refine ⟨fun h => ?_, fun _ => .refl _ _⟩
    by_cases hg : g = x
    · subst hg
      exact .inr (.inl ⟨by rw [h]; decide, update_self _ _ _, rfl, rfl⟩)
    · exact .inl ⟨update_of_ne hg _ _, rfl, rfl⟩
  case supervise.finish_none | supervise.finish_some =>
    by_cases hg : g = x
    · subst hg
      exact .inr (.inr (.inl ⟨update_self _ _ _, rfl, rfl⟩))
    · exact .inl ⟨update_of_ne hg _ _, rfl, rfl⟩
  case acquire.guard_remove_entry | supervise.cleanup_entry =>
    refine ⟨.refl _ _, fun _ => ⟨fun _ _ => ?_, fun _ => .inl ⟨rfl, rfl, rfl⟩⟩⟩
    dsimp only
    split <;> exact .inl ⟨rfl, rfl, rfl⟩
  all_goals
    repeat' first
      | exact trivial
      | exact .inl ⟨rfl, rfl, rfl⟩
      | apply And.intro
      | intro _

/-- The token of `g` and the debts to it: none before its control is cancelled, one in all from
then on until the control is finished. -/
def Owed (g : GenId) (m : Memory R K E) (n : ℕ) : Prop :=
  ((m.control g).rank < 2 → m.cancels g = 0 ∧ n = 0) ∧
    (m.control g = .cancelling → m.cancels g + n = 1) ∧ m.cancels g + n ≤ 1

omit [DecidableEq R] [DecidableEq K] in
theorem Owed.step {k d d' : ℕ} (h : Owed g m (k + d)) (hs : Spends g m d m' d') :
    Owed g m' (k + d') := by
  obtain ⟨h1, h2, h3⟩ := h
  rcases hs with ⟨hc, hn, rfl⟩ | ⟨hr, hc, hn, rfl⟩ | ⟨hc, hn, rfl⟩ | ⟨hr, hc, hn, rfl⟩ |
    ⟨hc, hn, rfl⟩
  · unfold Owed
    rw [hc, hn]
    exact ⟨h1, h2, h3⟩
  · have := h1 hr
    refine ⟨fun _ => by omega, fun h => ?_, by omega⟩
    rw [hc] at h
    cases h
  · refine ⟨fun h => ?_, fun h => ?_, by omega⟩
    · rw [hc] at h
      exact absurd h (by decide)
    · rw [hc] at h
      cases h
  · have := h1 hr
    refine ⟨fun h => ?_, fun _ => by omega, by omega⟩
    rw [hc] at h
    exact absurd h (by decide)
  · refine ⟨fun h => ?_, fun h => ?_, by omega⟩
    · have := h1 (hc ▸ h)
      omega
    · have := h2 (hc ▸ h)
      omega

/-- **The token is cancelled once.** -/
theorem owed_of_reach {ok : State R K E → Action R K E → Prop} {s : State R K E}
    (hr : Reach (step cfg) ok State.new s) (g : GenId) : Owed g s.mem (s.total (Pc.owes g)) := by
  refine hr.invariant (fun s => Owed g s.mem (s.total (Pc.owes g)))
    ⟨fun _ => ⟨rfl, rfl⟩, fun h => ?_, Nat.zero_le _⟩ ?_
  · cases h
  intro s a s' ih _ h
  refine total_step (Pc.owes g) (Owed g) h ?_ ?_ ?_ ?_ ?_
  · rintro t p k - rfl - hk
    refine (wp_spends g).mono fun m p' c hd => ?_
    rw [Nat.add_assoc]
    exact (hk ▸ ih).step hd
  · rintro t p p' k hj - hk
    rw [hk] at ih
    cases hj <;> exact ih
  · rintro c m p - hc
    cases hc <;> exact ih
  · exact fun _ _ _ => ih
  · rintro m c hh
    cases hh <;> exact ih

/-! ## The final drop -/

/-- Once the destructor of an entry has called `Control::cancel`, the token is cancelled or the
control is finished. -/
def Pc.Fallen (m : Memory R K E) : Pc R K E → Prop
  | .drop g .fields | .drop g .finished => m.Cancelled g ∨ m.control g = .finished
  | _ => True

omit [DecidableEq R] [DecidableEq K] in
theorem Memory.Cancelled.mono (h : m.Cancelled g) (hg : Grows m m') : m'.Cancelled g :=
  h.imp (fun h => h.trans_le (hg.cancels g)) hg.shutdown

omit [DecidableEq R] [DecidableEq K] in
theorem Pc.Fallen.mono (h : p.Fallen m) (hg : Grows m m') : p.Fallen m' := by
  unfold Pc.Fallen at *
  split
  case h_3 => trivial
  all_goals exact Or.imp (·.mono hg) hg.finished h

/-- A destructor that finds the control cancelling finds the token cancelled: whoever still owed
it would be a second destructor, or a creator that holds the entry, or the domain's `cancel`. -/
theorem cancelled_of_cancelling {ok : State R K E → Action R K E → Prop} {s : State R K E}
    (hs : Reach (step cfg) ok State.new s) {q : Control.CancelPc}
    (ht : s.pc t = .drop g (.cancel q)) (hq : q ≠ .token) (hc : s.mem.control g = .cancelling) :
    s.mem.Cancelled g := by
  have howed := (owed_of_reach hs g).2.1 hc
  by_cases hn : s.total (Pc.owes g) = 0
  · exact .inl (by omega)
  obtain ⟨u, hu, hpos⟩ := Pool.exists_of_total_pos (Nat.pos_of_ne_zero hn)
  have hcancelling := cancelling_of_owes hpos
  have hcause := cause_of_cancelling hcancelling ((known_of_reach hs).2 u) ((past_of_reach hs).2 u)
  generalize hp : s.pc u = p at hcause hcancelling
  cases hcause
  case failed =>
    have hheld := (counted_of_reach hs).held_le hu g
    have hzero : g < s.mem.nextGen ∧ s.mem.strong g = 0 := by
      have := (known_of_reach hs).2 t
      rw [ht] at this
      exact this
    rw [hp, hzero.2] at hheld
    have hone : one g g ≤ 0 := hheld
    rw [one_self] at hone
    omega
  case dropped q' _ =>
    have heq := destructor_eq hs ht hp
    subst heq
    rw [ht] at hp
    cases hp
    cases hcancelling
    exact absurd rfl hq
  case stopped hst _ => exact .inr hst.2

theorem fallen_run (hp : p.Fallen m)
    (hc : ∀ g q, p = .drop g (.cancel q) → q ≠ .token → m.control g = .cancelling → m.Cancelled g) :
    p.code.wp cfg t m fun m' p' c => p'.Fallen m' ∧ ForSome (Pc.Fallen m') c := by
  cases p using Pc.points
  case drop_cancel_load g =>
    refine ⟨fun _ => ⟨trivial, trivial⟩, fun _ => ⟨trivial, trivial⟩, fun h => ?_, fun h => ?_⟩
    · exact ⟨.inl (hc g _ rfl (by decide) h), trivial⟩
    · exact ⟨.inr h, trivial⟩
  case drop_cancel_exchange g current =>
    refine ⟨fun _ => ⟨trivial, trivial⟩, fun _ => ⟨trivial, trivial⟩,
      fun _ => ⟨trivial, trivial⟩, fun h => ?_, fun h => ?_⟩
    · exact ⟨.inl (hc g _ rfl (by simp) h), trivial⟩
    · exact ⟨.inr h, trivial⟩
  case drop_cancel_token g =>
    refine ⟨.inl (.inl ?_), trivial⟩
    show 0 < update m.cancels g _ g
    rw [update_self]
    exact Nat.succ_pos _
  case acquire_guard_remove_entry | supervise_cleanup_entry =>
    refine ⟨⟨trivial, trivial⟩, fun _ => ⟨fun _ _ => ?_, fun _ => ⟨trivial, trivial⟩⟩⟩
    dsimp only
    split <;> exact ⟨trivial, trivial⟩
  all_goals
    repeat' first
      | exact trivial
      | exact hp
      | apply And.intro
      | intro _

theorem fallen_of_reach {ok : State R K E → Action R K E → Prop} {s : State R K E}
    (hr : Reach (step cfg) ok State.new s) (u : Tid) : (s.pc u).Fallen s.mem := by
  revert u
  refine hr.invariant_of_reach (fun s => ∀ u, (s.pc u).Fallen s.mem) (fun _ => trivial) ?_
  intro s a s' hs ih _ h
  refine forall_pc_step (fun m _ p => p.Fallen m) h ih (fun u _ => (ih u).mono (grows_step h))
    ?_ ?_ ?_ ?_
  · rintro t p - rfl - hp
    exact fallen_run hp fun g q hq => cancelled_of_cancelling hs hq
  · rintro t p p' hj - - -
    cases hj <;> trivial
  · rintro c m p rfl hc
    cases hc <;> trivial
  · rintro m c hh
    cases hh
    trivial

/-! ## Why a token is cancelled -/

/-- What warrants that the token of `g` is cancelled: nobody holds it any more, or the domain has
left `Running`. -/
def Memory.Warrants (m : Memory R K E) (g : GenId) : Prop :=
  g < m.nextGen ∧ m.strong g = 0 ∨ ¬ m.Accepting

/-- An instruction cancels a token, or the domain's, when that is warranted. -/
def Instr.Warranted {α : Type} (m : Memory R K E) : Instr R K E α → Prop
  | .cancelToken g _ => m.Warrants g
  | .cancelShutdown _ => ¬ m.Accepting
  | _ => True

omit [DecidableEq R] [DecidableEq K] in
theorem warranted_of_known (hk : p.Known m) (hp : p.Past m) (hs : p.Starts m) :
    p.code.Warranted m := by
  cases p using Pc.points
  case acquire_create_cancel_token => exact .inr hs
  case drop_cancel_token => exact .inl hk
  case cancel_control_token | shutdown_cancel_control_token | terminate_cancel_control_token
      | terminate_shutdown_cancel_control_token => exact .inr hp.1
  case cancel_token | shutdown_cancel_token | terminate_cancel_token
      | terminate_shutdown_cancel_token => exact hp
  all_goals trivial

theorem wp_warranted {α : Type} {ins : Instr R K E α} (hi : ins.Warranted m)
    (h : ∀ g, m.Cancelled g → m.Warrants g) :
    ins.wp cfg t m fun m' _ _ => ∀ g, m'.Cancelled g → m.Warrants g := by
  cases ins
  case cancelToken x k =>
    rintro g (hc | hc)
    · by_cases hg : g = x
      · exact hg ▸ hi
      · have heq : update m.cancels x (m.cancels x + 1) g = m.cancels g := update_of_ne hg _ _
        exact h g (.inl (heq ▸ hc))
    · exact h g (.inr hc)
  case cancelShutdown k => exact fun _ _ => .inr hi
  all_goals
    repeat' first
      | exact trivial
      | exact h
      | apply And.intro
      | intro _

omit [DecidableEq R] [DecidableEq K] in
theorem Memory.Warrants.mono (h : m.Warrants g) (hg : Grows m m') (hi : Inert m m') :
    m'.Warrants g := by
  refine h.imp (fun h => ⟨h.1.trans_le hi.1, (hi.2 g h.2).resolve_right fun he => ?_⟩)
    fun h ha => h (hg.accepting ha)
  exact absurd h.1 (he.1 ▸ Nat.lt_irrefl _)

/-- **No spurious cancellation.** -/
theorem warranted_of_reach {ok : State R K E → Action R K E → Prop} {s : State R K E}
    (hr : Reach (step cfg) ok State.new s) (hc : s.mem.Cancelled g) : s.mem.Warrants g := by
  revert g
  refine hr.invariant_of_reach (fun s => ∀ {g}, s.mem.Cancelled g → s.mem.Warrants g) ?_ ?_
  · rintro g (h | h)
    · exact absurd h (Nat.lt_irrefl 0)
    · cases h
  · intro s a s' hs ih _ h g hc
    refine Memory.Warrants.mono ?_ (grows_step h) ((counted_of_reach hs).inert h)
    refine mem_step (fun m => ∀ g, m.Cancelled g → s.mem.Warrants g) h (fun _ => ih) ?_ ?_ ?_ ?_
      g hc
    · rintro t p - rfl -
      exact wp_warranted (warranted_of_known ((known_of_reach hs).2 t) ((past_of_reach hs).2 t)
        (starts_of_reach hs t)) fun _ => ih
    · rintro c m p - hcall
      cases hcall <;> exact fun _ => ih
    · exact fun _ _ _ _ => ih
    · rintro m c hh
      cases hh <;> exact fun _ => ih

/-! ## Leases and cancellation -/

/-- **Lease and cancellation coincide.** The strong count of a registered generation is the number
of references held plus what the calls in progress hold; its token is cancelled only when that
count has reached zero or the domain has left `Running`; once it has reached zero the destructor
runs, after which the token is cancelled or the control finished, and the count stays zero; and
the token is cancelled at most once. -/
theorem lease_and_cancellation_coincide {ok : State R K E → Action R K E → Prop}
    {s s' : State R K E} (hs : Reach (step cfg) ok State.new s)
    (hr : Reach (step cfg) ok s s') (hg : s.mem.taskId g ≠ none) :
    s.mem.strong g = s.mem.leases g + s.total (Pc.held g) ∧
      (s.mem.Cancelled g → s.mem.strong g = 0 ∨ s.mem.phase ≠ .running) ∧
      (s.mem.strong g = 0 →
        (∃! t, ∃ p, s.pc t = .drop g p) ∧
        (∀ t, s.pc t = .drop g .finished → s.mem.Cancelled g ∨ s.mem.control g = .finished) ∧
        s'.mem.strong g = 0) ∧
      s.mem.cancels g ≤ 1 := by
  have hlt := (known_of_reach hs).1.lt_nextGen hg
  refine ⟨(counted_of_reach hs).strong g, fun hc => ?_, fun h0 => ⟨?_, fun t ht => ?_, ?_⟩, ?_⟩
  · exact (warranted_of_reach hs hc).imp (·.2) id
  · obtain ⟨t, p, ht⟩ := exists_destructor hs hlt h0
    refine ⟨t, ⟨p, ht⟩, ?_⟩
    rintro u ⟨q, hu⟩
    exact destructor_eq hs hu ht
  · have := fallen_of_reach hs t
    rw [ht] at this
    exact this
  · exact dead_of_reach hs hr hlt h0
  · have := (owed_of_reach hs g).2.2
    omega

/-- A generation is created, its only lease is dropped and its destructor runs to the end. -/
def leaseRun : List (Action Unit Unit Unit) :=
  .call (.acquire ⟨.spawn, ⟨(), ()⟩⟩) :: List.replicate 14 (.run 0 .go) ++
    .release .outside 0 :: List.replicate 4 (.run 2 .go)

theorem leaseRun_cancelled :
    ((afterwards false leaseRun).get (by decide +kernel)).mem.Cancelled 0 ∨
      ((afterwards false leaseRun).get (by decide +kernel)).mem.control 0 = .finished :=
  ((lease_and_cancellation_coincide
    (reach_afterwards (fun _ => True) (fun _ _ => trivial) (by decide +kernel)) .refl
    (by decide +kernel)).2.2.1 (by decide +kernel)).2.1 2 (by decide +kernel)

end Resourcery
