import Resourcery.Proof.Cleanup
import Resourcery.Proof.Discovery
import Resourcery.Proof.Iteration
import Resourcery.Proof.Outcomes

/-!
# Terminal generations

Once somebody has waited for the outcome of a generation, nobody who begins to look for it
afterwards finds it, even while references to it are still held: its control has been finished
before the outcome was published and before its sender was dropped. Only a supervising future that
the executor drops, or that unwinds, before it has finished the control, breaks this.
-/

namespace Resourcery

open Interleaving Function Transition ResourceContext

variable {R K E : Type}

/-- The supervising future has not finished the control of its generation. -/
def ResourceContext.SupervisePc.early : SupervisePc E → Bool
  | .unpolled | .join | .finish _ => true
  | _ => false

/-- The supervising future of `g` comes to its end before it has finished the control. -/
def Strays (g : GenId) (s : State R K E) (a : Action R K E) : Prop :=
  a.endsSupervisor = true ∧
    ∃ t i id site p, a.actor = some t ∧ s.pc t = .supervise i g id site p ∧ p.early = true

/-- The outcome of `g` has been published, or its sender is gone. -/
def Memory.Reported (m : Memory R K E) (g : GenId) : Prop :=
  m.outcome g ≠ none ∨ m.closed g = true

/-- The generation an instruction reports on. -/
def Instr.reports? {α : Type} : Instr R K E α → Option GenId
  | .send g _ _ | .dropSender g _ => some g
  | _ => none

/-- `g` has come to its end, and when key operations are `sound` its establishment is gone; or the
domain has stopped accepting. -/
def Memory.Concluded (sound : Prop) (m : Memory R K E) (g : GenId) : Prop :=
  g < m.nextGen ∧ (¬ m.Accepting ∨ m.control g = .finished ∧
    (sound → ∀ i x, m.ident g = some i → m.site g = some x → m.Left i x))

/-- A supervising future of `g` that has finished leaves it concluded. -/
def Pc.Concludes (sound : Prop) (g : GenId) (m : Memory R K E) : Pc R K E → Prop
  | .supervise i x _ site (.finalize ..) | .supervise i x _ site (.dropSender _)
  | .supervise i x _ site (.ended _) =>
    x = g → m.control g = .finished ∧ (sound → ForSome (m.Left i) site)
  | _ => True

variable {cfg : Config R K} {t u w : Tid} {m m' : Memory R K E} {p : Pc R K E} {g : GenId}
  {i : Ident R K} {sound : Prop}

theorem Memory.Concluded.retired (h : m.Concluded sound g) : m.Retired g := by
  refine ⟨h.1, h.2.symm.imp_left fun h => .inr ?_⟩
  rw [h.1]
  exact Nat.le_succ _

theorem Pc.Concludes.mono (h : p.Concludes sound g m) (hg : Grows m m')
    (hl : ∀ i x, m.Left i x → m'.Left i x) : p.Concludes sound g m' := by
  cases p
  case supervise i x id site p =>
    have keep (h : x = g → m.control g = .finished ∧ (sound → ForSome (m.Left i) site))
        (hx : x = g) : m'.control g = .finished ∧ (sound → ForSome (m'.Left i) site) := by
      refine (h hx).imp hg.finished fun h hs => ?_
      have hleft := h hs
      cases site with
      | none => trivial
      | some y => exact hl _ _ hleft
    cases p
    case finalize | dropSender | ended => exact keep h
    all_goals trivial
  all_goals trivial

section

variable [DecidableEq R] [DecidableEq K]

theorem wp_reported {α : Type} {ins : Instr R K E α} (h : ins.reports? ≠ some g) :
    ins.wp cfg t m fun m' _ _ => m'.Reported g → m.Reported g := by
  cases ins
  case send x o k =>
    have hne : g ≠ x := fun e => h (congrArg some e.symm)
    refine ⟨fun _ => id, fun _ hr => hr.imp_left fun ho => ?_⟩
    exact (update_of_ne hne _ m.outcome) ▸ ho
  case dropSender x k =>
    have hne : g ≠ x := fun e => h (congrArg some e.symm)
    exact fun hr => hr.imp_right fun hc => (update_of_ne hne _ m.closed) ▸ hc
  all_goals
    repeat' first
      | exact trivial
      | exact id
      | apply And.intro
      | intro _

variable {s s' v : State R K E} {a : Action R K E} {ok : State R K E → Action R K E → Prop}
  {vs : List (State R K E)}

/-! ## What is concluded when -/

section

variable (hok : ∀ s a, ok s a → ¬ Strays g s a) (hkeys : sound → ∀ s a, ok s a → a.KeysSound)

include hkeys in
/-- A supervising future that has taken the step of the cleanup has left no establishment. -/
theorem left_of_supervise (hs : Reach (step cfg) ok State.new s) {id : ℕ} {site : Option Site}
    {p : SupervisePc E} (hp : s.pc t = .supervise i g id site p)
    (hpub : p = .removeLive ∨ ∃ o b, p = .publish o b) : sound → ForSome (s.mem.Left i) site := by
  intro hsound
  have hgone := gone_of_reach (hkeys hsound) hs t
  rw [hp] at hgone
  rcases hpub with rfl | ⟨o, b, rfl⟩ <;> exact hgone

include hok hkeys in
theorem concludes_of_reach (hs : Reach (step cfg) ok State.new s) (u : Tid) :
    (s.pc u).Concludes sound g s.mem := by
  revert u
  refine hs.invariant_of_reach (fun s => ∀ u, (s.pc u).Concludes sound g s.mem)
    (fun _ => trivial) ?_
  intro s a s' hs ih ha h
  have hjoined := joined_of_reach hs
  refine forall_supervise_step (fun m p => p.Concludes sound g m) ?_ h ih
    (fun u _ => (ih u).mono (grows_step h) fun _ _ => left_step hs h) ?_ ?_ ?_
  · rintro m p hp
    cases p <;> trivial
  · exact fun _ _ _ _ _ _ => trivial
  · rintro t i x id site p - hp hA
    have hj := hjoined t
    have hleft := fun hpub => left_of_supervise (g := x) hkeys hs hp hpub
    rw [hp] at hj
    cases p
    case removeLive =>
      rintro rfl
      exact ⟨hj.2, hleft (.inl rfl)⟩
    case finalize exit p =>
      cases p
      case dropSupervisor b => cases b <;> exact hA
      all_goals
        repeat' first
          | exact hA
          | apply And.intro
          | intro _
    case dropSender => exact hA
    case cleanup y outcome p =>
      cases p
      case entry =>
        refine ⟨trivial, fun _ => ⟨fun _ _ => ?_, fun _ => trivial⟩⟩
        dsimp only
        split <;> trivial
      case dropState b => cases b <;> trivial
      all_goals
        repeat' first
          | exact trivial
          | apply And.intro
          | intro _
    case finish => cases site <;> trivial
    all_goals
      repeat' first
        | exact trivial
        | apply And.intro
        | intro _
  · rintro t p p' hj hp hsup hA
    have hjt := hjoined t
    rw [hp] at hjt
    cases hj
    case publish i x id site o b =>
      rintro rfl
      exact ⟨hjt.2, left_of_supervise hkeys hs hp (.inr ⟨o, b, rfl⟩)⟩
    case unpolled i x id site =>
      rintro rfl
      exact absurd ⟨rfl, t, i, id, site, _, rfl, hp, rfl⟩ (hok s _ ha)
    case join i x id site =>
      rintro rfl
      exact absurd ⟨rfl, t, i, id, site, _, rfl, hp, rfl⟩ (hok s _ ha)
    case finish i x id site payload =>
      rintro rfl
      exact absurd ⟨rfl, t, i, id, site, _, rfl, hp, rfl⟩ (hok s _ ha)
    all_goals trivial

include hok hkeys in
/-- Whoever reports on `g` finds it concluded. -/
theorem concluded_of_reports (hs : Reach (step cfg) ok State.new s)
    (h : (s.pc t).code.reports? = some g) : s.mem.Concluded sound g := by
  have hk := (known_of_reach hs).2 t
  have hj := joined_of_reach hs t
  have hst := starts_of_reach hs t
  have hc := concludes_of_reach hok hkeys hs t
  have hleft {i : Ident R K} {id : ℕ} {site : Option Site} {p : SupervisePc E}
      (hp : s.pc t = .supervise i g id site p) := left_of_supervise hkeys hs hp
  have made {i : Ident R K} {site : Option Site} (hm : s.mem.Made i site g)
      (hf : s.mem.control g = .finished) (hl : sound → ForSome (s.mem.Left i) site) :
      s.mem.Concluded sound g := by
    refine ⟨hm.1, .inr ⟨hf, fun hs j x hj hx => ?_⟩⟩
    obtain rfl := Option.some.inj (hm.2.1.symm.trans hj)
    have hl := hl hs
    rw [← hm.2.2, hx] at hl
    exact hl
  generalize hp : s.pc t = p at h hk hj hst hc
  cases p using Pc.points
  all_goals cases h
  case acquire_create_dropSender_none | acquire_create_dropSender_some =>
    exact ⟨hk.1.1, .inl hst⟩
  case supervise_publish => exact made hk.1 hj.2 (hleft hp (.inr ⟨_, _, rfl⟩))
  case supervise_dropSender => exact made hk.1 (hc rfl).1 (hc rfl).2

omit hok hkeys in
theorem concluded_step (hs : Reach (step cfg) ok State.new s) (h : step cfg s a = some s')
    (hc : s.mem.Concluded sound g) : s'.mem.Concluded sound g := by
  have hg := grows_step h
  refine ⟨Nat.lt_of_lt_of_le hc.1 hg.nextGen, hc.2.imp (fun ha hacc => ha (hg.accepting hacc)) ?_⟩
  rintro ⟨hf, hl⟩
  refine ⟨hg.finished hf, fun hsound i x hi hx => left_step hs h (hl hsound i x ?_ ?_)⟩
  · rw [← hg.ident g hc.1, hi]
  · rw [← hg.site g hc.1, hx]

include hok hkeys in
/-- **Who has an outcome of `g` finds it concluded.** -/
theorem concluded_of_reported (hs : Reach (step cfg) ok State.new s) (h : s.mem.Reported g) :
    s.mem.Concluded sound g := by
  revert h
  refine hs.invariant_of_reach (fun s => s.mem.Reported g → s.mem.Concluded sound g) ?_ ?_
  · rintro (h | h)
    · exact absurd rfl h
    · cases h
  · intro s a s' hs ih ha h hr
    refine concluded_step hs h ?_
    have hor : s.mem.Reported g ∨ ∃ t, (s.pc t).code.reports? = some g := by
      refine mem_step (fun m => m.Reported g → s.mem.Reported g ∨
        ∃ t, (s.pc t).code.reports? = some g) h .inl ?_ ?_ ?_ ?_ hr
      · rintro t p - rfl -
        by_cases hcode : (s.pc t).code.reports? = some g
        · exact (wp_grows _).mono fun _ _ _ _ _ => .inr ⟨t, hcode⟩
        · exact (wp_reported hcode).mono fun _ _ _ h hr => .inl (h hr)
      · rintro c m p - hc
        cases hc <;> exact .inl
      · exact fun _ _ _ => .inl
      · rintro m c hh
        cases hh <;> exact .inl
    rcases hor with hr | ⟨t, hcode⟩
    · exact ih hr
    · exact concluded_of_reports hok hkeys hs hcode

include hok hkeys in
/-- Once a call that waits for `g` has returned, `g` is concluded. -/
theorem concluded_of_returned (hs : Reach (step cfg) ok State.new s) {o : ResourceOutcome E}
    (hw : s.pc w = .wait g (.returned o)) : s.mem.Concluded sound g := by
  have hwatch := watches_of_reach hs w
  rw [hw] at hwatch
  refine concluded_of_reported hok hkeys hs ?_
  rcases hwatch with h | ⟨-, h, -⟩
  · exact .inl (h ▸ Option.some_ne_none o)
  · exact .inr h

theorem concluded_of_reach (hs : Reach (step cfg) ok State.new s) (hr : Reach (step cfg) ok s s')
    (hc : s.mem.Concluded sound g) : s'.mem.Concluded sound g :=
  hr.invariant_of_reach (fun s => s.mem.Concluded sound g) hc
    fun _ _ _ hu hc _ h => concluded_step (hs.trans hu) h hc

end

/-! ## Calls that begin later -/

/-- A thread that has been started stays so. -/
theorem not_idle_of_reach (hs : Reach (step cfg) ok State.new s) (hr : Reach (step cfg) ok s s')
    (hu : s.pc u ≠ .idle) : s'.pc u ≠ .idle := by
  refine hr.invariant_of_reach (fun s => s.pc u ≠ .idle) hu ?_
  intro v a v' hv hne _ h hidle
  have hwork := work_step h (fresh_of_reach (hs.trans hv)) hne
  rw [hidle] at hwork
  generalize v.pc u = p at hne hwork
  cases p <;> first | exact hne rfl | cases hwork

/-- An instant of a call that had not begun at `v` comes after `v`. -/
theorem during_after {live P : State R K E → Prop} (hs : Trace (step cfg) ok State.new vs s)
    (hv : v ∈ vs) (hu : v.pc u = .idle) (hlive : ∀ s, live s → s.pc u ≠ .idle)
    (h : During vs live P) : ∃ v', Reach (step cfg) ok v v' ∧ v' ∈ vs ∧ live v' ∧ P v' := by
  obtain ⟨v', hv', hl, hP⟩ := h
  refine ⟨v', (hs.reach_or_reach hv hv').resolve_right fun hr => ?_, hv', hl, hP⟩
  exact not_idle_of_reach (hs.reach_of_mem hv').1 hr (hlive v' hl) hu

omit [DecidableEq R] [DecidableEq K] in
theorem not_idle_of_inCall (h : InCall u s) : s.pc u ≠ .idle := by
  intro hp
  unfold InCall at h
  rw [hp] at h
  exact h rfl

omit [DecidableEq R] [DecidableEq K] in
theorem not_idle_of_collecting {r : R} (h : Collecting r u s) : s.pc u ≠ .idle := by
  obtain ⟨p, hp, -⟩ := h
  rw [hp]
  exact fun h => by cases h

/-- What the call of a thread has returned. -/
def Pc.Yields (g : GenId) : Pc R K E → Prop
  | .discover _ _ (.returned (.active x)) | .acquire _ (.returned (.ok x))
  | .upgrade _ (.returned (some x)) => x = g
  | .all _ (.returned found) => g ∈ found
  | _ => False

/-- No call that begins when `g` is concluded returns it. -/
theorem not_yields_of_concluded (hs : Trace (step cfg) ok State.new vs s) (hv : v ∈ vs)
    (hu : v.pc u = .idle) (hc : v.mem.Concluded False g) : ¬ (s.pc u).Yields g := by
  obtain ⟨hr, -⟩ := hs.reach_of_mem hv
  have hsaw := saw_of_trace hs u
  have gone {P : Memory R K E → Prop} (h : Was vs u P)
      (hP : ∀ m : Memory R K E, m.Concluded False g → ¬ P m) : False := by
    obtain ⟨v', hr', -, -, h⟩ := during_after hs hv hu (fun _ => not_idle_of_inCall) h
    exact hP _ (concluded_of_reach hr hr' hc) h
  have lost (m : Memory R K E) (hc : m.Concluded False g) : ¬ m.Acquirable g :=
    hc.retired.not_acquirable
  have missed (i : Ident R K) (m : Memory R K E) (hc : m.Concluded False g) :
      m.lookup i ≠ .active g := fun h => by
    obtain ⟨-, -, -, -, hacq⟩ := lookup_eq_active h
    exact lost m hc hacq
  intro hy
  unfold Pc.Yields at hy
  split at hy
  case h_1 d i x hp =>
    rw [hp] at hsaw
    exact gone (P := fun m => m.lookup i = .active x) hsaw (hy ▸ missed i)
  case h_2 q x hp =>
    obtain rfl := hy
    rw [hp] at hsaw
    rcases hsaw with h | ⟨-, h⟩
    · exact gone h (missed q.ident)
    · exact gone h fun m hc hm => Nat.not_lt.mpr hm.2 hc.1
  case h_3 y x hp =>
    obtain rfl := hy
    rw [hp] at hsaw
    obtain ⟨rfl, h⟩ := hsaw x rfl
    exact gone h lost
  case h_4 r found hp =>
    obtain ⟨v', hr', -, -, h⟩ := during_after hs hv hu (fun _ => not_idle_of_collecting)
      ((sound_of_trace hs r u _ hp).2 g hy)
    exact lost _ (concluded_of_reach hr hr' hc) h
  case h_5 => exact hy

/-- A call that begins when `g` is concluded and its establishment gone, and that is answered
`Occupied`, has found an identity whose slot is not that of `g`. -/
theorem occupied_elsewhere (hs : Trace (step cfg) ok State.new vs s) (hv : v ∈ vs)
    (hu : v.pc u = .idle) (hc : v.mem.Concluded True g) {q : Request R K} {x : Site}
    (hp : s.pc u = .acquire q (.returned (.err .occupied)))
    (hi : s.mem.ident g = some q.ident) (hx : s.mem.site g = some x) :
    During vs (InCall u) fun v => v.mem.lookup q.ident ≠ .absent ∧
      ¬ (v.mem.Attached q.ident x.slot ∧
        (v.mem.state q.ident x.slot).generation = x.generation) := by
  obtain ⟨hr, hr'⟩ := hs.reach_of_mem hv
  have hsaw := saw_of_trace hs u
  rw [hp] at hsaw
  obtain ⟨hacc, hfound⟩ := hsaw
  obtain ⟨v₁, hr₁, -, -, hacc⟩ := during_after hs hv hu (fun _ => not_idle_of_inCall) hacc
  obtain ⟨v₂, hr₂, hv₂, hc₂, hfound⟩ := during_after hs hv hu (fun _ => not_idle_of_inCall) hfound
  have hgrow := grows_of_reach hr'
  have hleft := (hc.2.resolve_left fun ha => ha ((grows_of_reach hr₁).accepting hacc)).2 trivial
    q.ident x ((hgrow.ident g hc.1).symm.trans hi) ((hgrow.site g hc.1).symm.trans hx)
  exact ⟨v₂, hv₂, hc₂, hfound, (left_of_reach hr hr₂ hleft).not_attached⟩

/-- **Terminal means undiscoverable.** In every run in which the supervising future of `g` finishes
the control before it comes to its end: once a call that waits for `g` has returned, no call that
begins afterwards returns `g`. When no key operation panics, a call that is answered `Occupied` has
found a claimed or active identity whose slot is not that of `g`. -/
theorem terminal_is_undiscoverable (hok : ∀ s a, ok s a → ¬ Strays g s a)
    (hs : Trace (step cfg) ok State.new vs s) (hv : v ∈ vs) {o : ResourceOutcome E}
    (hw : v.pc w = .wait g (.returned o)) (hu : v.pc u = .idle) :
    (∀ q i, s.pc u ≠ .discover q i (.returned (.active g))) ∧
    (∀ q, s.pc u ≠ .acquire q (.returned (.ok g))) ∧
    (∀ x, s.pc u ≠ .upgrade x (.returned (some g))) ∧
    (∀ r found, s.pc u = .all r (.returned found) → g ∉ found) ∧
    ((∀ s a, ok s a → a.KeysSound) → ∀ q x, s.pc u = .acquire q (.returned (.err .occupied)) →
      s.mem.ident g = some q.ident → s.mem.site g = some x →
      During vs (InCall u) fun v => v.mem.lookup q.ident ≠ .absent ∧
        ¬ (v.mem.Attached q.ident x.slot ∧
          (v.mem.state q.ident x.slot).generation = x.generation)) := by
  obtain ⟨hr, -⟩ := hs.reach_of_mem hv
  have hnot := not_yields_of_concluded hs hv hu (concluded_of_returned hok False.elim hr hw)
  refine ⟨fun q i hp => ?_, fun q hp => ?_, fun x hp => ?_, fun r found hp hmem => ?_,
    fun hkeys q x hp hi hx => ?_⟩
  · exact hnot (hp ▸ rfl)
  · exact hnot (hp ▸ rfl)
  · exact hnot (hp ▸ rfl)
  · exact hnot (hp ▸ hmem)
  · exact occupied_elsewhere hs hv hu (concluded_of_returned hok (fun _ => hkeys) hr hw) hp hi hx

/-- **An outcome is terminal**, in every run in which the supervising future of `g` finishes the
control before it comes to its end. Once a call that waits for `g` has returned an outcome, no call
that begins afterwards returns `g`, and when no key operation panics none is answered `Occupied`
on account of `g`: it has found the identity claimed or active, at an instant at which the
establishment of `g` is gone from its slot. -/
theorem outcome_is_terminal (hok : ∀ s a, ok s a → ¬ Strays g s a)
    (hs : Trace (step cfg) ok State.new vs s) (hv : v ∈ vs) {o : ResourceOutcome E}
    (hw : v.pc w = .wait g (.returned o)) (hu : v.pc u = .idle) :
    ¬ (s.pc u).Yields g ∧
      ((∀ s a, ok s a → a.KeysSound) → ∀ q x, s.pc u = .acquire q (.returned (.err .occupied)) →
        s.mem.ident g = some q.ident → s.mem.site g = some x →
        During vs (InCall u) fun v => v.mem.lookup q.ident ≠ .absent ∧
          ¬ (v.mem.Attached q.ident x.slot ∧
            (v.mem.state q.ident x.slot).generation = x.generation)) := by
  obtain ⟨hr, -⟩ := hs.reach_of_mem hv
  refine ⟨not_yields_of_concluded hs hv hu (concluded_of_returned hok False.elim hr hw), ?_⟩
  intro hkeys q x hp hi hx
  exact occupied_elsewhere hs hv hu (concluded_of_returned hok (fun _ => hkeys) hr hw) hp hi hx

end

/-- A generation whose task completes, and an observer that has waited for it. -/
def terminalRun : List (Action Unit Unit Unit) :=
  foundRun ++ [.call (.finished .outside 0), .poll 0, .gate 0, .finish 0 .ok] ++
    List.replicate 10 (.run 1 .go) ++ List.replicate 2 (.run 2 .go)

/-- A `get` that begins afterwards, while the generation is still leased. -/
def belatedRun : List (Action Unit Unit Unit) :=
  .call (.discover .get ⟨(), ()⟩) :: List.replicate 1 (.run 3 .go)

theorem belatedRun_missed : ((afterwards true (terminalRun ++ belatedRun)).get
    (by decide +kernel)).pc 3 ≠ .discover .get ⟨(), ()⟩ (.returned (.active 0)) := by
  have hs : Trace (step (.single true)) (fun _ a => a.KeepsSupervisor) State.new
      (visited (step (.single true)) [State.new] State.new (terminalRun ++ belatedRun))
      ((afterwards true (terminalRun ++ belatedRun)).get (by decide +kernel)) :=
    trace_exec (P := Action.KeepsSupervisor) (fun _ _ h => h) (by decide +kernel)
      (by decide +kernel)
  have hv : (afterwards true terminalRun).get (by decide +kernel) ∈
      visited (step (.single true)) [State.new] State.new (terminalRun ++ belatedRun) :=
    mem_visited (List.mem_singleton.mpr rfl) (Option.some_get _).symm _
  have hw : ((afterwards true terminalRun).get (by decide +kernel)).pc 2 =
      .wait 0 (.returned .completed) := by decide +kernel
  exact (terminal_is_undiscoverable (fun _ _ h hstray => Bool.noConfusion (h.symm.trans hstray.1))
    hs hv hw (by decide +kernel)).1 _ _

/-- A `get_or_spawn` that begins afterwards, while the first generation is still leased. -/
def renewingRun : List (Action Unit Unit Unit) :=
  .call (.acquire ⟨.getOrSpawn, ⟨(), ()⟩⟩) :: List.replicate 26 (.run 3 .go)

theorem renewingRun_yields :
    ¬ (((afterwards true (terminalRun ++ renewingRun)).get (by decide +kernel)).pc 3).Yields 0 := by
  have hs : Trace (step (.single true)) (fun _ a => a.KeepsSupervisor) State.new
      (visited (step (.single true)) [State.new] State.new (terminalRun ++ renewingRun))
      ((afterwards true (terminalRun ++ renewingRun)).get (by decide +kernel)) :=
    trace_exec (P := Action.KeepsSupervisor) (fun _ _ h => h) (by decide +kernel)
      (by decide +kernel)
  have hv : (afterwards true terminalRun).get (by decide +kernel) ∈
      visited (step (.single true)) [State.new] State.new (terminalRun ++ renewingRun) :=
    mem_visited (List.mem_singleton.mpr rfl) (Option.some_get _).symm _
  have hw : ((afterwards true terminalRun).get (by decide +kernel)).pc 2 =
      .wait 0 (.returned .completed) := by decide +kernel
  exact (outcome_is_terminal (fun _ _ h hstray => Bool.noConfusion (h.symm.trans hstray.1))
    hs hv hw (by decide +kernel)).1

/-- A generation whose supervising future is dropped while it joins the task, and an observer that
has waited for it. -/
def strayedRun : List (Action Unit Unit Unit) :=
  foundRun ++ [.call (.finished .outside 0), .run 1 .go, .dropSupervisor 1] ++
    List.replicate 5 (.run 1 .go) ++ List.replicate 3 (.run 2 .go)

/-- A `get` that begins afterwards, and that returns the generation all the same. -/
def foundAgainRun : List (Action Unit Unit Unit) :=
  .call (.discover .get ⟨(), ()⟩) :: List.replicate 9 (.run 3 .go)

theorem strayed_is_found :
    ¬ ∀ (vs : List (State Unit Unit Unit)) (v s : State Unit Unit Unit) (g : GenId) (w u : Tid)
      (o : ResourceOutcome Unit),
      Trace (step (.single true)) (fun _ _ => True) State.new vs s → v ∈ vs →
        v.pc w = .wait g (.returned o) → v.pc u = .idle → ¬ (s.pc u).Yields g := by
  intro h
  have hs : Trace (step (.single true)) (fun _ _ => True) State.new
      (visited (step (.single true)) [State.new] State.new (strayedRun ++ foundAgainRun))
      ((afterwards true (strayedRun ++ foundAgainRun)).get (by decide +kernel)) :=
    trace_exec (P := fun _ => True) (fun _ _ h => h) (fun _ _ => trivial) (by decide +kernel)
  have hv : (afterwards true strayedRun).get (by decide +kernel) ∈
      visited (step (.single true)) [State.new] State.new (strayedRun ++ foundAgainRun) :=
    mem_visited (List.mem_singleton.mpr rfl) (Option.some_get _).symm _
  have hw : ((afterwards true strayedRun).get (by decide +kernel)).pc 2 =
      .wait 0 (.returned .aborted) := by decide +kernel
  have hp : ((afterwards true (strayedRun ++ foundAgainRun)).get (by decide +kernel)).pc 3 =
      .discover .get ⟨(), ()⟩ (.returned (.active 0)) := by decide +kernel
  refine h _ _ _ 0 2 3 .aborted hs hv hw (by decide +kernel) ?_
  rw [hp]
  rfl

end Resourcery
