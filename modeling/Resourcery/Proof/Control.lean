import Resourcery.Logic.Wp

/-!
# A control on its own

Any number of threads cancel, activate and finish one `Control`, in any order. Its phase only moves
forward; one call of `activate` succeeds at most, and none once a cancellation has won its exchange;
and the token is cancelled once if the control was ever cancelling, and otherwise never.
-/

namespace Resourcery

open Interleaving Function Transition

variable {R K E : Type}

namespace Control

/-! ## The threads -/

/-- The points of a thread that calls `cancel`, `activate` or `finish`. -/
inductive UserPc
  | idle
  | cancel (p : CancelPc)
  | activate
  | finish
  | activated (success : Bool)
  | returned
deriving DecidableEq

/-- The instruction at a point. -/
def UserPc.code (g : GenId) : UserPc → Instr R K E UserPc
  | .idle => .halt
  | .cancel p => Control.cancel g .cancel .returned p
  | .activate => .exchangeActive g .activated
  | .finish => .storeFinished g .returned
  | .activated _ => .halt
  | .returned => .halt

/-- The call has returned. -/
def UserPc.hasReturned : UserPc → Bool
  | .idle | .activated _ | .returned => true
  | _ => false

/-- A call begins, or a thread takes its next step. -/
inductive Use
  | cancel | activate | finish
  | run (t : Tid) (ch : Choice)

/-- A control and the threads that use it. -/
abbrev Users (R K E : Type) := Pool (Memory R K E) UserPc

/-- A control nobody has used. -/
def Users.new : Users R K E := Pool.initial Memory.new .idle

/-- The exchange has been won and the token has not been cancelled yet. -/
def UserPc.owes (p : UserPc) : ℕ := if p = .cancel .token then 1 else 0

/-- The call of `activate` has succeeded. -/
def UserPc.succeeds (p : UserPc) : ℕ := if p = .activated true then 1 else 0

/-- What one step of a thread does to the control `g`. -/
inductive UserStep (g : GenId) (m m' : Memory R K E) : UserPc → UserPc → Prop
  /-- `cancel` loads the phase, or its exchange fails. -/
  | observe {p : CancelPc} {p' : UserPc} (control : m'.control g = m.control g)
      (cancels : m'.cancels g = m.cancels g) (owes : p'.owes = 0) (succeeds : p'.succeeds = 0)
      (before : p ≠ .token) : UserStep g m m' (.cancel p) p'
  | win {current : CancellablePhase} (before : m.control g = current.1)
      (control : m'.control g = .cancelling) (cancels : m'.cancels g = m.cancels g) :
      UserStep g m m' (.cancel (.exchange current)) (.cancel .token)
  | token (control : m'.control g = m.control g) (cancels : m'.cancels g = m.cancels g + 1) :
      UserStep g m m' (.cancel .token) .returned
  | activate (before : m.control g = .starting) (control : m'.control g = .active)
      (cancels : m'.cancels g = m.cancels g) : UserStep g m m' .activate (.activated true)
  | refuse (before : m.control g ≠ .starting) (control : m'.control g = m.control g)
      (cancels : m'.cancels g = m.cancels g) : UserStep g m m' .activate (.activated false)
  | finish (control : m'.control g = .finished) (cancels : m'.cancels g = m.cancels g) :
      UserStep g m m' .finish .returned

variable {cfg : Config R K} {t u : Tid} {m m' : Memory R K E} {p p' : UserPc} {g : GenId}

theorem owes_cancelFrom (ph : Phase) :
    (cancelFrom UserPc.cancel .returned ph).owes = 0 ∧
      (cancelFrom UserPc.cancel .returned ph).succeeds = 0 := by
  cases ph <;> exact ⟨rfl, rfl⟩

variable [DecidableEq R] [DecidableEq K]

/-- A call begins, or a thread takes its next step. -/
def use (cfg : Config R K) (g : GenId) (s : Users R K E) : Use → Option (Users R K E)
  | .cancel => some (s.fork (some (.cancel .load)))
  | .activate => some (s.fork (some .activate))
  | .finish => some (s.fork (some .finish))
  | .run t ch =>
    if t < s.size then (execute cfg t ch s.mem ((s.pc t).code g)).map (s.advance t) else none

theorem wp_user (p : UserPc) : (p.code g).wp cfg t m fun m' p' c =>
    UserStep g m m' p p' ∧ c = none := by
  have observe (ph : Phase) (q : CancelPc) (hq : q ≠ .token) :
      UserStep g m m (.cancel q) (cancelFrom UserPc.cancel .returned ph) ∧
        (none : Option UserPc) = none :=
    ⟨.observe rfl rfl (owes_cancelFrom ph).1 (owes_cancelFrom ph).2 hq, rfl⟩
  cases_type* UserPc CancelPc
  case cancel.load => exact ⟨fun _ => observe _ _ nofun, fun _ => observe _ _ nofun,
    fun _ => observe _ _ nofun, fun _ => observe _ _ nofun⟩
  case cancel.exchange current =>
    exact ⟨fun h => ⟨.win h (update_self _ _ _) rfl, rfl⟩, fun _ => observe _ _ nofun,
      fun _ => observe _ _ nofun, fun _ => observe _ _ nofun, fun _ => observe _ _ nofun⟩
  case cancel.token => exact ⟨.token rfl (update_self _ _ _), rfl⟩
  case activate =>
    exact ⟨fun h => ⟨.activate h (update_self _ _ _) rfl, rfl⟩, fun h => ⟨.refuse h rfl rfl, rfl⟩⟩
  case finish => exact ⟨.finish (update_self _ _ _) rfl, rfl⟩
  all_goals trivial

/-- **What a step does.** A call begins, which the control does not notice, or one thread moves. -/
inductive UseCases (g : GenId) (s : Users R K E) : Use → Users R K E → Prop
  | call {a : Use} {p : UserPc} (owes : p.owes = 0) (succeeds : p.succeeds = 0) :
      UseCases g s a (s.fork (some p))
  | run {t : Tid} {ch : Choice} {mv : Move (Memory R K E) UserPc} (started : t < s.size)
      (made : UserStep g s.mem mv.mem (s.pc t) mv.pc) (alone : mv.child = none) :
      UseCases g s (.run t ch) (s.advance t mv)

theorem use_cases {s s' : Users R K E} {a : Use} (h : use cfg g s a = some s') :
    UseCases g s a s' := by
  cases a
  case run t ch =>
    simp only [use] at h
    split_ifs at h with ht
    obtain ⟨mv, hmv, rfl⟩ := Option.map_eq_some_iff.mp h
    obtain ⟨hstep, halone⟩ := (wp_user (s.pc t)).sound hmv
    exact .run ht hstep halone
  all_goals
    cases h
    exact .call rfl rfl

/-! ## Rules -/

/-- The rule for the control. -/
theorem control_use {s s' : Users R K E} {a : Use} (h : use cfg g s a = some s')
    (P : Memory R K E → Prop) (hP : P s.mem)
    (hrun : ∀ m' p p', UserStep g s.mem m' p p' → P m') : P s'.mem := by
  cases use_cases h with
  | call => simpa using hP
  | run _ hm _ =>
    rw [Pool.advance_mem]
    exact hrun _ _ _ hm

omit [DecidableEq R] [DecidableEq K] in
theorem UserStep.rank (h : UserStep g m m' p p') : (m.control g).rank ≤ (m'.control g).rank := by
  cases h
  case win current before control _ =>
    rw [before, control]
    obtain ⟨_, rfl | rfl⟩ := current <;> decide
  case activate before control _ => rw [before, control]; decide
  case finish control _ =>
    rw [control]
    cases m.control g <;> decide
  case observe control _ _ _ _ | token control _ | refuse _ control _ =>
    exact Nat.le_of_eq (congrArg Phase.rank control.symm)

/-- **The phase never moves backward.** -/
theorem rank_of_reach {ok : Users R K E → Use → Prop} {s s' : Users R K E}
    (hr : Reach (use cfg g) ok s s') :
    (s.mem.control g).rank ≤ (s'.mem.control g).rank :=
  hr.rel (fun u v => (u.mem.control g).rank ≤ (v.mem.control g).rank) (fun _ => Nat.le_refl _)
    (fun _ _ _ => Nat.le_trans) fun u _ _ _ h =>
      control_use h (fun m => (u.mem.control g).rank ≤ (m.control g).rank) (Nat.le_refl _)
        fun _ _ _ hm => hm.rank

/-- The rule for a point a thread can only come to in some states. -/
theorem pc_use {s s' : Users R K E} {a : Use} (h : use cfg g s a = some s') (q : UserPc)
    (hcall : q.owes = 0 → q.succeeds = 0 → False)
    (hrun : ∀ m' p, ¬ UserStep g s.mem m' p q) (hq : s'.pc u = q) : s.pc u = q := by
  revert hq
  cases use_cases h with
  | @call _ p howes hsucc =>
    refine Pool.forall_pc_fork (A := fun u p => p = q → s.pc u = q) (fun _ h => h) ?_ u
    rintro _ ⟨⟩ rfl
    exact (hcall howes hsucc).elim
  | @run t ch mv ht hm halone =>
    refine Pool.forall_pc_advance (A := fun u p => p = q → s.pc u = q) ?_ (fun _ _ h => h) ?_ u
    · rintro rfl
      exact absurd hm (hrun _ _)
    · intro c hc
      exact nomatch halone.symm.trans hc

/-- The rule for sums. -/
theorem total_use {s s' : Users R K E} {a : Use} (h : use cfg g s a = some s') (f : UserPc → ℕ)
    (hf : ∀ p : UserPc, p.owes = 0 → p.succeeds = 0 → f p = 0) (P : Memory R K E → ℕ → Prop)
    (hP : P s.mem (s.total f))
    (hrun : ∀ m' p p' k, UserStep g s.mem m' p p' → s.total f = k + f p → P m' (k + f p')) :
    P s'.mem (s'.total f) := by
  cases use_cases h with
  | @call _ p howes hsucc =>
    rw [Pool.fork_mem, Pool.total_fork, Option.map_some, Option.getD_some, hf p howes hsucc]
    exact hP
  | @run t ch mv ht hm halone =>
    have hle := Pool.le_total f ht
    have hadv := Pool.total_advance f ht mv
    have hs := hrun mv.mem _ _ (s.total f - f (s.pc t)) hm (by omega)
    rw [halone, Option.map_none, Option.getD_none] at hadv
    rw [Pool.advance_mem, show (s.advance t mv).total f = s.total f - f (s.pc t) + f mv.pc by omega]
    exact hs

/-! ## The token -/

/-- The control has been cancelling in one of the states `vs`. -/
def Ever (g : GenId) (vs : List (Users R K E)) : Prop :=
  ∃ v ∈ vs, v.mem.control g = .cancelling

omit [DecidableEq R] [DecidableEq K] in
theorem ever_cons {vs : List (Users R K E)} {s : Users R K E} :
    Ever g (s :: vs) ↔ s.mem.control g = .cancelling ∨ Ever g vs := by
  simp [Ever]

/-- The token has been cancelled or is owed once if the control was ever cancelling, and otherwise
neither. -/
def Counted (g : GenId) (ever : Prop) (m : Memory R K E) (n : ℕ) : Prop :=
  ever ∧ m.cancels g + n = 1 ∧ 2 ≤ (m.control g).rank ∨
    ¬ ever ∧ m.cancels g + n = 0 ∧ m.control g ≠ .cancelling

omit [DecidableEq R] [DecidableEq K] in
/-- A step wins the exchange, or pays what it owes. -/
theorem UserStep.pays (h : UserStep g m m' p p') :
    (m.control g).rank < 2 ∧ m'.control g = .cancelling ∧ m'.cancels g = m.cancels g ∧
        p.owes = 0 ∧ p'.owes = 1 ∨
      m'.cancels g + p'.owes = m.cancels g + p.owes ∧
        (m'.control g = .cancelling → m.control g = .cancelling) := by
  cases h
  case observe q control cancels before howes _ =>
    have hp : UserPc.owes (.cancel _) = 0 := if_neg fun e => before (UserPc.cancel.inj e)
    exact .inr ⟨by rw [cancels, howes, hp], (control ▸ ·)⟩
  case win current before control cancels =>
    refine .inl ⟨?_, control, cancels, rfl, rfl⟩
    rw [before]
    obtain ⟨_, rfl | rfl⟩ := current <;> decide
  case token control cancels => exact .inr ⟨cancels, (control ▸ ·)⟩
  case activate _ control cancels =>
    exact .inr ⟨cancels, fun e => nomatch control.symm.trans e⟩
  case refuse _ control cancels => exact .inr ⟨cancels, (control ▸ ·)⟩
  case finish control cancels =>
    exact .inr ⟨cancels, fun e => nomatch control.symm.trans e⟩

omit [DecidableEq R] [DecidableEq K] in
/-- Only a thread that owes the token cancels it. -/
theorem UserStep.cancels_eq (h : UserStep g m m' p p') (hp : p ≠ .cancel .token) :
    m'.cancels g = m.cancels g := by
  cases h
  case token => exact absurd rfl hp
  all_goals assumption

omit [DecidableEq R] [DecidableEq K] in
/-- One step of a thread; the others owe `k`. -/
theorem Counted.step {ever : Prop} {k : ℕ} (h : Counted g ever m (k + p.owes))
    (hm : UserStep g m m' p p') :
    Counted g (m'.control g = .cancelling ∨ ever) m' (k + p'.owes) := by
  have hrank := hm.rank
  rcases hm.pays with ⟨hlow, hcan, hc, h0, h1⟩ | ⟨hc, hcan⟩
  · obtain ⟨-, -, hr⟩ | ⟨-, hn, -⟩ := h
    · omega
    · refine .inl ⟨.inl hcan, by omega, ?_⟩
      rw [hcan]
      decide
  · obtain ⟨he, hn, hr⟩ | ⟨he, hn, hne⟩ := h
    · exact .inl ⟨.inr he, by omega, hr.trans hrank⟩
    · exact .inr ⟨fun e => e.elim (fun e => hne (hcan e)) he, by omega, fun e => hne (hcan e)⟩

theorem counted_of_trace {ok : Users R K E → Use → Prop} {vs : List (Users R K E)}
    {s : Users R K E} (hs : Trace (use cfg g) ok Users.new vs s) :
    Counted g (Ever g vs) s.mem (s.total UserPc.owes) := by
  refine hs.invariant (fun vs s => Counted g (Ever g vs) s.mem (s.total UserPc.owes)) ?_ ?_
  · refine .inr ⟨fun ⟨v, hv, hc⟩ => ?_, rfl, nofun⟩
    obtain rfl := List.mem_singleton.mp hv
    cases hc
  · intro vs s a s' _ ih _ h
    rw [ever_cons]
    refine total_use h UserPc.owes (fun _ h _ => h)
      (fun m n => Counted g (m.control g = .cancelling ∨ Ever g vs) m n) ?_ ?_
    · refine ih.imp (fun h => ⟨.inr h.1, h.2⟩) fun h => ⟨fun e => e.elim h.2.2 h.1, h.2⟩
    · intro m' p p' k hm hk
      rw [hk] at ih
      exact ih.step hm

/-! ## Activation -/

omit [DecidableEq R] [DecidableEq K] in
/-- A step activates a control that was starting, or succeeds at nothing. -/
theorem UserStep.starts (h : UserStep g m m' p p') :
    m.control g = .starting ∧ m'.control g ≠ .starting ∧ p'.succeeds = 1 ∨
      p'.succeeds = 0 ∧ (m'.control g = .starting → m.control g = .starting) := by
  cases h
  case observe q control _ _ _ hsucc => exact .inr ⟨hsucc, (control ▸ ·)⟩
  case win control _ => exact .inr ⟨rfl, fun e => nomatch control.symm.trans e⟩
  case token control _ => exact .inr ⟨rfl, (control ▸ ·)⟩
  case activate before control _ => exact .inl ⟨before, fun e => (nomatch control.symm.trans e), rfl⟩
  case refuse control _ => exact .inr ⟨rfl, (control ▸ ·)⟩
  case finish control _ => exact .inr ⟨rfl, fun e => nomatch control.symm.trans e⟩

/-- One call of `activate` has succeeded at most, and none while the control is starting. -/
theorem activated_of_reach {ok : Users R K E → Use → Prop} {s : Users R K E}
    (hs : Reach (use cfg g) ok Users.new s) :
    s.total UserPc.succeeds ≤ 1 ∧ (s.mem.control g = .starting → s.total UserPc.succeeds = 0) := by
  refine hs.invariant (fun s => s.total UserPc.succeeds ≤ 1 ∧
    (s.mem.control g = .starting → s.total UserPc.succeeds = 0))
    ⟨Nat.zero_le _, fun _ => rfl⟩ ?_
  intro s a s' ih _ h
  refine total_use h UserPc.succeeds (fun _ _ h => h)
    (fun m n => n ≤ 1 ∧ (m.control g = .starting → n = 0)) ih ?_
  intro m' p p' k hm hk
  rcases hm.starts with ⟨hb, ha, h1⟩ | ⟨h0, hc⟩
  · have := ih.2 hb
    exact ⟨by omega, fun e => absurd e ha⟩
  · exact ⟨by omega, fun e => by have := ih.2 (hc e); omega⟩

/-! ## Afterwards -/

/-- A finished control stays so, and no further exchange is won. -/
theorem finished_of_reach {ok : Users R K E → Use → Prop} {s s' : Users R K E}
    (hf : s.mem.control g = .finished) (hr : Reach (use cfg g) ok s s') :
    s'.mem.control g = .finished ∧ ∀ u, s'.pc u = .cancel .token → s.pc u = .cancel .token := by
  refine hr.invariant (fun s' => s'.mem.control g = .finished ∧
    ∀ u, s'.pc u = .cancel .token → s.pc u = .cancel .token) ⟨hf, fun _ h => h⟩ ?_
  rintro v a v' ⟨hc, ih⟩ ha h
  refine ⟨?_, fun u hu => ih u (pc_use h _ (fun h => nomatch h) (fun m' p hm => ?_) hu)⟩
  · have hle := rank_of_reach (Relation.ReflTransGen.single ⟨a, ha, h⟩)
    rw [hc] at hle
    cases hv : v'.mem.control g
    case finished => rfl
    all_goals
      rw [hv] at hle
      exact absurd hle (by decide)
  · obtain ⟨hlow, -⟩ | ⟨-, hcan⟩ := hm.pays
    · rw [hc] at hlow
      exact absurd hlow (by decide)
    · cases hm
      case observe howes _ => cases howes
      case win control _ => exact nomatch (hcan control).symm.trans hc

/-- After a cancellation no activation succeeds. -/
theorem not_activated_of_reach {ok : Users R K E → Use → Prop} {s s' : Users R K E}
    (hc : s.mem.control g ≠ .starting) (hr : Reach (use cfg g) ok s s') :
    s'.mem.control g ≠ .starting ∧
      ∀ u, s'.pc u = .activated true → s.pc u = .activated true := by
  refine hr.invariant (fun s' => s'.mem.control g ≠ .starting ∧
    ∀ u, s'.pc u = .activated true → s.pc u = .activated true) ⟨hc, fun _ h => h⟩ ?_
  rintro v a v' ⟨hc, ih⟩ - h
  refine ⟨?_, fun u hu => ih u (pc_use h _ (fun _ h => nomatch h) (fun m' p hm => ?_) hu)⟩
  · refine control_use h (fun m => m.control g ≠ .starting) hc fun m' p p' hm => ?_
    obtain ⟨-, ha, -⟩ | ⟨-, hs⟩ := hm.starts
    · exact ha
    · exact fun e => hc (hs e)
  · obtain ⟨hb, -, -⟩ | ⟨h0, -⟩ := hm.starts
    · exact hc hb
    · cases h0

/-! ## The machine -/

omit [DecidableEq R] [DecidableEq K] in
theorem lt_of_ne_idle {s : Users R K E} (hf : Pool.Fresh .idle s) (h : s.pc u ≠ .idle) :
    u < s.size := by
  by_contra hn
  exact h (hf u (Nat.le_of_not_lt hn))

theorem fresh_of_use {ok : Users R K E → Use → Prop} {s : Users R K E}
    (hs : Reach (use cfg g) ok Users.new s) : Pool.Fresh .idle s := by
  refine hs.invariant (Pool.Fresh .idle) (fun _ _ => rfl) ?_
  intro s a s' hf _ h
  cases use_cases h with
  | call => exact Pool.fresh_fork hf _
  | run ht _ _ => exact Pool.fresh_advance hf ht _

/-- **A control only moves forward.** For every run of any number of threads: the phase never goes
back; once it is finished nothing changes it, and only a thread that has won its exchange before
still cancels the token; one call of `activate` succeeds at most; none succeeds after a
cancellation has won its exchange; and when all calls have returned, the token has been cancelled
once if the control has ever been cancelling, and otherwise never. -/
theorem control_only_moves_forward {vs : List (Users R K E)} {s s' : Users R K E}
    (hs : Trace (use cfg g) (fun _ _ => True) Users.new vs s)
    (hr : Reach (use cfg g) (fun _ _ => True) s s') :
    (s.mem.control g).rank ≤ (s'.mem.control g).rank ∧
      (s.mem.control g = .finished → ∀ t ch s'', use cfg g s' (.run t ch) = some s'' →
        s''.mem.control g = .finished ∧
          (s.pc t ≠ .cancel .token → s''.mem.cancels g = s'.mem.cancels g)) ∧
      (∀ t u, s.pc t = .activated true → s.pc u = .activated true → t = u) ∧
      (∀ t, s.pc t = .cancel .token → ∀ u, s'.pc u = .activated true → s.pc u = .activated true) ∧
      ((∀ u < s.size, (s.pc u).hasReturned = true) →
        ((∃ v ∈ vs, v.mem.control g = .cancelling) → s.mem.cancels g = 1) ∧
        ((∀ v ∈ vs, v.mem.control g ≠ .cancelling) → s.mem.cancels g = 0)) := by
  have hnew := hs.reach
  refine ⟨rank_of_reach hr, fun hf t ch s'' h => ?_, fun t u ht hu => ?_, fun t ht u hu => ?_,
    fun hall => ?_⟩
  · have hdone := finished_of_reach hf (hr.tail ⟨.run t ch, trivial, h⟩)
    refine ⟨hdone.1, fun ht => ?_⟩
    have hnot : s'.pc t ≠ .cancel .token := fun e => ht ((finished_of_reach hf hr).2 t e)
    cases use_cases h with
    | call => rw [Pool.fork_mem]
    | run _ hm _ =>
      rw [Pool.advance_mem]
      exact hm.cancels_eq hnot
  · have lt {v : Tid} (hv : s.pc v = .activated true) : v < s.size :=
      lt_of_ne_idle (fresh_of_use hnew) fun e => nomatch hv.symm.trans e
    by_contra hne
    have hle := Pool.add_le_total UserPc.succeeds (lt ht) (lt hu) hne
    rw [ht, hu] at hle
    have h2 : 1 + 1 ≤ s.total UserPc.succeeds := hle
    have := (activated_of_reach hnew).1
    omega
  · obtain ⟨-, -, hrank⟩ | ⟨-, hn, -⟩ := counted_of_trace hs
    · refine (not_activated_of_reach (fun e => ?_) hr).2 u hu
      rw [e] at hrank
      exact absurd hrank (by decide)
    · have hlt : t < s.size :=
        lt_of_ne_idle (fresh_of_use hnew) fun e => nomatch ht.symm.trans e
      have hle := Pool.le_total UserPc.owes hlt
      rw [ht] at hle
      have hone : 1 ≤ s.total UserPc.owes := hle
      omega
  · have hzero : s.total UserPc.owes = 0 := by
      by_contra hne
      obtain ⟨t, hlt, hpos⟩ := Pool.exists_of_total_pos (Nat.pos_of_ne_zero hne)
      have hret := hall t hlt
      unfold UserPc.owes at hpos
      split_ifs at hpos with ht
      · rw [ht] at hret
        cases hret
      · omega
    obtain ⟨hever, hn, -⟩ | ⟨hnever, hn, -⟩ := counted_of_trace hs
    · exact ⟨fun _ => by omega, fun hno => absurd hever fun ⟨v, hv, hc⟩ => hno v hv hc⟩
    · exact ⟨fun hyes => absurd hyes hnever, fun _ => by omega⟩

/-- A control is activated, cancelled after a spurious failure, and finished. -/
def controlRun : List Use :=
  [.cancel, .activate, .finish, .run 0 .go, .run 0 .spurious, .run 1 .go, .run 0 .go, .run 0 .go,
    .run 2 .go, .run 0 .go]

/-- What a run makes of a control nobody has used. -/
def used (as : List Use) : Option (Users Unit Unit Unit) :=
  exec (use (.single true) 0) Users.new as

theorem controlRun_cancels : ((used controlRun).get (by decide +kernel)).mem.cancels 0 = 1 :=
  ((control_only_moves_forward (trace_exec (P := fun _ => True) (fun _ _ _ => trivial)
    (fun _ _ => trivial) (by decide +kernel)) .refl).2.2.2.2 (by decide +kernel)).1
    (by decide +kernel)

end Control

end Resourcery
