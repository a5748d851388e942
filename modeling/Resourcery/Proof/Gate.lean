import Resourcery.Proof.Completeness
import Resourcery.Proof.Results

/-!
# The start gate

The wrapper around a task ignores what its gate resolves to, so a sender that is dropped opens the
gate as one that is used does. `Opened` says when a gate is open: its generation is registered, and
for a canonical one its slot has been active or the domain has stopped accepting; or the
registration has failed and the task has been aborted before. Only a poll that was in progress then
begins a body nobody supervises.
-/

namespace Resourcery

open Interleaving Function Transition ResourceContext

variable {R K E : Type}

/-! ## Openings -/

/-- What an acquisition has done by the time it opens the gate of its generation: it has aborted the
task, or it has put the generation into its slot. -/
def ResourceContext.AcquirePc.Opening (m : Memory R K E) (Was : Site → GenId → Prop) :
    AcquirePc → Prop
  | .create _ (.cancel g _) | .create _ (.dropStart g) => m.aborted g = true
  | .settle n generation g .dropState | .settle n generation g .notify
  | .settle n generation g .start => Was ⟨n, generation⟩ g
  | _ => True

variable {cfg : Config R K} {t : Tid} {m m' : Memory R K E} {p : Pc R K E} {g : GenId}
  {i : Ident R K} {x : Site}

theorem opens_cases (h : p.code.opens? = some g) :
    (∃ q site, p = .acquire q (.create site (.dropStart g))) ∨
      (∃ q n generation, p = .acquire q (.settle n generation g .start)) ∨
        (∃ q n generation, p = .acquire q (.settle n generation g .lateStart)) ∨
          ∃ q, p = .acquire q (.start g) := by
  revert h
  cases p using Pc.points
  all_goals
    intro h
    cases h
  case acquire_create_dropStart => exact .inl ⟨_, _, rfl⟩
  case acquire_settle_start => exact .inr (.inl ⟨_, _, _, rfl⟩)
  case acquire_settle_lateStart => exact .inr (.inr (.inl ⟨_, _, _, rfl⟩))
  case acquire_start => exact .inr (.inr (.inr ⟨_, rfl⟩))

theorem ResourceContext.AcquirePc.Opening.mono {W W' : Site → GenId → Prop} {p : AcquirePc}
    (h : p.Opening m W) (hm : ∀ g, m.aborted g = true → m'.aborted g = true)
    (hW : ∀ x g, W x g → W' x g) : p.Opening m' W' := by
  unfold AcquirePc.Opening at *
  split <;> first | exact hm _ h | exact hW _ _ h | trivial

variable [DecidableEq R] [DecidableEq K]

theorem opening_run {q : Request R K} {p : AcquirePc} {W : Ident R K → Site → GenId → Prop}
    (hp : p.Opening m (W q.ident)) : (Pc.acquire q p : Pc R K E).code.wp cfg t m fun m' p' _ =>
      p'.OfAcquire fun q p => p.Opening m' fun x g =>
        m'.state q.ident x.slot = .active x.generation g ∨ W q.ident x g := by
  cases q, p using AcquirePc.points
  case create_abort g => exact update_self g true m.aborted
  case settle_storeActive n generation g => exact .inl (if_pos ⟨rfl, rfl⟩)
  case settle_dropState | settle_notify => exact .inr hp
  case guard_remove_entry =>
    refine ⟨trivial, fun _ => ⟨fun _ _ => ?_, fun _ => trivial⟩⟩
    dsimp only
    split <;> trivial
  all_goals
    repeat' first
      | exact trivial
      | exact hp
      | apply And.intro
      | intro _

section

variable {ok : State R K E → Action R K E → Prop} {s s' : State R K E} {a : Action R K E}
  {vs : List (State R K E)}

/-- In one of the states `vs`, the slot of `x` is active with `g`. -/
def WasActive (vs : List (State R K E)) (i : Ident R K) (x : Site) (g : GenId) : Prop :=
  ∃ v ∈ vs, v.mem.state i x.slot = .active x.generation g

omit [DecidableEq R] [DecidableEq K] in
theorem WasActive.cons (h : WasActive vs i x g) (s : State R K E) : WasActive (s :: vs) i x g :=
  h.imp fun _ h => ⟨List.mem_cons_of_mem s h.1, h.2⟩

theorem opening_of_trace (hr : Trace (step cfg) ok State.new vs s) (u : Tid) :
    (s.pc u).OfAcquire fun q p => p.Opening s.mem fun x g => WasActive vs q.ident x g := by
  revert u
  refine hr.invariant (fun vs s => ∀ u, (s.pc u).OfAcquire fun q p =>
    p.Opening s.mem fun x g => WasActive vs q.ident x g) (fun _ => trivial) ?_
  intro vs s a s' _ ih _ h u
  have key : (s'.pc u).OfAcquire fun q p => p.Opening s'.mem fun x g =>
      s'.mem.state q.ident x.slot = .active x.generation g ∨ WasActive vs q.ident x g := by
    refine forall_acquire_step (fun m _ q p => p.Opening m fun x g =>
      m.state q.ident x.slot = .active x.generation g ∨ WasActive vs q.ident x g) h
      (fun u => (ih u).imp fun _ _ hp => hp.mono (fun _ => id) fun _ _ => .inr)
      (fun u q p _ hp => ((ih u).at hp).mono (grows_step h).aborted fun _ _ => .inr)
      (fun t q p _ hp _ =>
        opening_run (W := WasActive vs) ((ih t).at hp)) ?_
      (fun _ _ => ⟨trivial, trivial⟩) u
    rintro t q p p' - - hj -
    cases hj <;> trivial
  refine key.imp fun q p hp => hp.mono (fun _ => id) fun x g => ?_
  rintro (hx | hx)
  · exact ⟨s', List.mem_cons_self, hx⟩
  · exact hx.cons s'

/-! ## Open gates -/

/-- The gate of `g` may be open, after a run through `vs`: `g` is registered, and if it is canonical
its slot has been active with it or the domain has stopped accepting; or the registration has failed
and the task has been aborted. -/
def Opened (g : GenId) (vs : List (State R K E)) (s : State R K E) : Prop :=
  s.mem.taskId g ≠ none ∧ (∀ i x, s.mem.ident g = some i → s.mem.site g = some x →
      WasActive vs i x g ∨ ¬ s.mem.Accepting) ∨
    s.mem.taskId g = none ∧ s.mem.aborted g = true

theorem Opened.next (h : Opened g vs s) (hs : Reach (step cfg) ok State.new s) (ha : ok s a)
    (hstep : step cfg s a = some s') (hg : g < s.mem.nextGen) : Opened g (s' :: vs) s' := by
  have hgrow := grows_step hstep
  rcases h with ⟨hreg, hact⟩ | ⟨hreg, hab⟩
  · refine .inl ⟨hgrow.registered g hreg, fun i x hi hx => ?_⟩
    rw [hgrow.ident g hg] at hi
    rw [hgrow.site g hg] at hx
    exact (hact i x hi hx).imp (·.cons s') fun h h' => h (hgrow.accepting h')
  · have hsame := registered_of_reach hs (.single ⟨a, ha, hstep⟩) (lasting_of_reach hs g hab)
    exact .inr ⟨hsame ▸ hreg, hgrow.aborted g hab⟩

/-- A thread that opens a gate may. -/
theorem opened_of_opens (hr : Trace (step cfg) ok State.new vs s)
    (ho : (s.pc t).code.opens? = some g) : g < s.mem.nextGen ∧ Opened g vs s := by
  have hs := hr.reach
  have hk := (known_of_reach hs).2 t
  have hp := opening_of_trace hr t
  have hx := excused_of_reach hs t
  rcases opens_cases ho with ⟨q, site, h⟩ | ⟨q, n, generation, h⟩ | ⟨q, n, generation, h⟩ | ⟨q, h⟩
    <;> rw [h] at hk hp hx
  · exact ⟨hk.1.1, .inr ⟨hk.2, hp⟩⟩
  · refine ⟨hk.1.1, .inl ⟨hk.2, fun i x hi hsite => .inl ?_⟩⟩
    obtain rfl := Option.some.inj (hk.1.2.1.symm.trans hi)
    obtain rfl := Option.some.inj (hk.1.2.2.symm.trans hsite)
    exact hp
  · exact ⟨hk.1.1, .inl ⟨hk.2, fun _ _ _ _ => .inr hx⟩⟩
  · exact ⟨hk.1.1, .inl ⟨hk.2, fun i x _ hsite => nomatch hk.1.2.2.symm.trans hsite⟩⟩

/-- A gate opens by a step of the thread that holds its sender. -/
theorem start_step (h : step cfg s a = some s') (hg : s'.mem.start g ≠ .pending) :
    s.mem.start g ≠ .pending ∨
      ∃ t ch, a = .run t ch ∧ (s.pc t).code.opens? = some g := by
  cases step_cases h with
  | @call _ m _ hb =>
    rw [Pool.fork_mem] at hg
    have hm : m.start g ≠ .pending := hg
    cases call_cases hb <;> exact .inl hm
  | @run t ch mv hr he =>
    rw [Pool.advance_mem] at hg
    by_cases ho : (s.pc t).code.opens? = some g
    · exact .inr ⟨t, ch, rfl, ho⟩
    · rw [(wp_start ho).sound he] at hg
      exact .inl hg
  | jump => exact .inl hg
  | task => exact .inl hg
  | @hold _ m _ hh =>
    rw [Pool.fork_mem] at hg
    have hm : m.start g ≠ .pending := hg
    cases hold_cases hh <;> exact .inl hm

theorem opened_of_trace (hr : Trace (step cfg) ok State.new vs s)
    (hg : s.mem.start g ≠ .pending) : Opened g vs s := by
  induction hr with
  | start => exact absurd rfl hg
  | @next vs s s' a run ha h ih =>
    have hs := run.reach
    have hold : g < s.mem.nextGen ∧ Opened g vs s := by
      rcases start_step h hg with hg | ⟨t, ch, -, ho⟩
      · refine ⟨Nat.lt_of_not_le fun hn => ?_, ih hg⟩
        exact hg ((known_of_reach hs).1.fresh g hn).2.2.2.1
      · exact opened_of_opens run ho
    exact hold.2.next hs ha h hold.1

/-! ## Polls in progress -/

/-- An acquisition whose registration has failed drops the sender of the gate while a poll of the
task is in progress. -/
def DropsPolled (s : State R K E) (a : Action R K E) : Prop :=
  ∃ t ch q site g, a = .run t ch ∧ s.pc t = .acquire q (.create site (.dropStart g)) ∧
    s.mem.task g = .polling

theorem wp_polling {α : Type} (ins : Instr R K E α) :
    ins.wp cfg t m fun m' _ _ => m'.task g = .polling → m.task g = .polling := by
  cases ins
  case spawnTask x k =>
    intro hg
    have hg' : update m.task x .gated g = .polling := hg
    by_cases hx : g = x
    · rw [hx, update_self] at hg'
      cases hg'
    · rwa [update_of_ne hx] at hg'
  all_goals
    repeat' first
      | exact trivial
      | exact id
      | apply And.intro
      | intro _

/-- When no sender is dropped while a poll is in progress, no task whose registration has failed is
being polled with its gate open. -/
theorem not_polling_of_trace (hok : ∀ s a, ok s a → ¬ DropsPolled s a)
    (hr : Trace (step cfg) ok State.new vs s) (hg : s.mem.start g ≠ .pending)
    (hreg : s.mem.taskId g = none) : s.mem.task g ≠ .polling := by
  induction hr with
  | start => exact absurd rfl hg
  | @next vs s s' a run ha h ih => ?_
  have hs := run.reach
  have hreg : s.mem.taskId g = none := by
    by_contra hn
    exact (grows_step h).registered g hn hreg
  have hnot : s.mem.task g ≠ .polling ∧ (s.mem.aborted g = true ∨ ∃ t ch, a = .run t ch) := by
    rcases start_step h hg with hg | ⟨t, ch, rfl, ho⟩
    · refine ⟨ih hg hreg, .inl ?_⟩
      exact ((opened_of_trace run hg).resolve_left fun ho => ho.1 hreg).2
    · refine ⟨fun hpoll => ?_, .inr ⟨t, ch, rfl⟩⟩
      have hk := (known_of_reach hs).2 t
      rcases opens_cases ho with ⟨q, site, hp⟩ | ⟨q, n, generation, hp⟩ | ⟨q, n, generation, hp⟩ |
        ⟨q, hp⟩ <;> rw [hp] at hk
      · exact hok s _ ha ⟨t, ch, q, site, g, rfl, hp, hpoll⟩
      all_goals exact hk.2 hreg
  refine mem_step (fun m => m.task g ≠ .polling) h hnot.1 ?_ ?_ ?_ ?_
  · exact fun t p _ _ _ => (wp_polling _).mono fun _ _ _ hm hp => hnot.1 (hm hp)
  · rintro c m p - hc
    cases hc <;> exact hnot.1
  · intro x st ht
    by_cases hx : g = x
    · obtain rfl := hx
      show update s.mem.task g st g ≠ .polling
      rw [update_self]
      rintro rfl
      -- tokio begins no poll of a task that has been aborted
      cases ht with
      | poll _ live =>
        rcases hnot.2 with hab | ⟨t, ch, he⟩
        · rw [live] at hab
          cases hab
        · cases he
    · show update s.mem.task x st g ≠ .polling
      rw [update_of_ne hx]
      exact hnot.1
  · rintro m c hh
    cases hh <;> exact hnot.1

/-! ## Where bodies begin -/

/-- The body of a task begins in a poll that finds the gate open. -/
theorem open_of_gate (h : step cfg s (.gate g) = some s') (hb : s'.mem.task g = .running) :
    s.mem.task g = .polling ∧ s.mem.start g ≠ .pending := by
  cases step_cases h with
  | jump _ hj => cases hj
  | @task _ x st hx ht =>
    cases hx
    have hst : update s.mem.task g st g = .running := hb
    rw [update_self] at hst
    subst hst
    cases task_cases rfl ht with
    | start polling open_ => exact ⟨polling, open_⟩
  | hold hh => cases hh

/-- While supervising futures run to their end, the domain of a registered task that has not ended
is not terminated. -/
theorem not_terminated_of_registered (hok : ∀ s a, ok s a → a.KeepsSupervisor)
    (hs : Reach (step cfg) ok State.new s) (hg : s.mem.taskId g ≠ none)
    (he : (s.mem.task g).hasEnded = false) : s.mem.phase ≠ .terminated := by
  intro ht
  obtain ⟨id, hid⟩ := Option.ne_none_iff_exists'.mp hg
  rcases listed_or_removed hs hid with hmem | ⟨u, i, site, p, hp, hrem⟩
  · rw [terminated_of_reach hs ht] at hmem
    cases hmem
  · have := late_of_reach hs g (finished_of_removed hok hs hp hrem)
    rw [he] at this
    cases this

/-- **The start gate.** Whenever the body of a task begins, after a run through `vs`: if the
generation is registered and canonical, its slot has been active with it or the domain has stopped
accepting, and if supervising futures run to their end the domain is not terminated; and if its
registration has failed, the task has been aborted. If no acquisition whose registration has failed
drops the sender while a poll of the task is in progress, the generation is registered. -/
theorem bodies_begin_behind_gate (hr : Trace (step cfg) ok State.new vs s)
    (h : step cfg s (.gate g) = some s') (hb : s'.mem.task g = .running) :
    (s.mem.taskId g ≠ none → (∀ i x, s.mem.ident g = some i → s.mem.site g = some x →
        WasActive vs i x g ∨ ¬ s.mem.Accepting) ∧
      ((∀ s a, ok s a → a.KeepsSupervisor) → s.mem.phase ≠ .terminated)) ∧
      (s.mem.taskId g = none → s.mem.aborted g = true) ∧
      ((∀ s a, ok s a → ¬ DropsPolled s a) → s.mem.taskId g ≠ none) := by
  have hs := hr.reach
  obtain ⟨hpoll, hopen⟩ := open_of_gate h hb
  have hop := opened_of_trace hr hopen
  refine ⟨fun hreg => ⟨(hop.resolve_right fun ho => hreg ho.1).2, fun hok => ?_⟩,
    fun hreg => (hop.resolve_left fun ho => ho.1 hreg).2,
    fun hok hreg => not_polling_of_trace hok hr hopen hreg hpoll⟩
  exact not_terminated_of_registered hok hs hreg (by rw [hpoll]; rfl)

/-- **No body begins early**, in every run in which no acquisition whose registration has failed drops
the sender of a gate while a poll of the task is in progress. The body of a task begins only for a
generation that is registered, and if it is canonical only when its slot has been active with it or
the domain has stopped accepting; and if supervising futures run to their end, no body begins in a
domain that is terminated. -/
theorem no_body_begins_early (hok : ∀ s a, ok s a → ¬ DropsPolled s a)
    (hr : Trace (step cfg) ok State.new vs s) (h : step cfg s (.gate g) = some s')
    (hb : s'.mem.task g = .running) :
    s.mem.taskId g ≠ none ∧
      (∀ i x, s.mem.ident g = some i → s.mem.site g = some x →
        WasActive vs i x g ∨ ¬ s.mem.Accepting) ∧
      ((∀ s a, ok s a → a.KeepsSupervisor) → s.mem.phase ≠ .terminated) := by
  obtain ⟨hpoll, hopen⟩ := open_of_gate h hb
  have hreg : s.mem.taskId g ≠ none := fun hreg => not_polling_of_trace hok hr hopen hreg hpoll
  refine ⟨hreg, ((opened_of_trace hr hopen).resolve_right fun ho => hreg ho.1).2, fun hsup => ?_⟩
  exact not_terminated_of_registered hsup hr.reach hreg (by rw [hpoll]; rfl)

end

/-- A canonical generation whose task is polled when its creator has settled. -/
def begunRun : List (Action Unit Unit Unit) :=
  .call (.acquire ⟨.getOrSpawn, ⟨(), ()⟩⟩) :: List.replicate 26 (.run 0 .go) ++ [.poll 0]

theorem begunRun_registered :
    ((afterwards true begunRun).get (by decide +kernel)).mem.phase ≠ .terminated := by
  have hr : Trace (step (.single true)) (fun _ a => a.KeepsSupervisor) State.new
      (visited (step (.single true)) [State.new] State.new begunRun)
      ((afterwards true begunRun).get (by decide +kernel)) :=
    trace_exec (P := Action.KeepsSupervisor) (fun _ _ h => h) (by decide +kernel)
      (by decide +kernel)
  exact ((bodies_begin_behind_gate (g := 0) hr (Option.some_get (by decide +kernel)).symm
    (by decide +kernel)).1 (by decide +kernel)).2 fun _ _ h => h

/-- The generation whose gate an action opens by dropping its sender when the registration has
failed. -/
def Action.dropsStart? (s : State R K E) : Action R K E → Option GenId
  | .run t _ =>
    match s.pc t with
    | .acquire _ (.create _ (.dropStart g)) => some g
    | _ => none
  | _ => none

instance [DecidableEq E] (s : State R K E) (a : Action R K E) : Decidable (DropsPolled s a) :=
  decidable_of_iff (∃ g ∈ a.dropsStart? s, s.mem.task g = .polling) <| by
    constructor
    · rintro ⟨g, hg, hpoll⟩
      unfold Action.dropsStart? at hg
      split at hg
      · split at hg
        case h_1 t ch _ q site x hp =>
          cases hg
          exact ⟨t, ch, q, site, g, rfl, hp, hpoll⟩
        case h_2 => cases hg
      · cases hg
    · rintro ⟨t, ch, q, site, g, rfl, hp, hpoll⟩
      refine ⟨g, ?_, hpoll⟩
      simp only [Action.dropsStart?, hp]
      rfl

theorem begunRun_was_active :
    WasActive (visited (step (.single true)) [State.new] State.new begunRun)
      ⟨(), ()⟩ ⟨0, 1⟩ (0 : GenId) := by
  have hr : Trace (step (.single true)) (fun s a => ¬ DropsPolled s a) State.new
      (visited (step (.single true)) [State.new] State.new begunRun)
      ((afterwards true begunRun).get (by decide +kernel)) :=
    trace_of_exec .start (by decide +kernel) (Option.some_get (by decide +kernel)).symm
  have hbody := no_body_begins_early (g := 0) (fun _ _ h => h) hr
    (Option.some_get (by decide +kernel)).symm (by decide +kernel)
  exact (hbody.2.1 ⟨(), ()⟩ ⟨0, 1⟩ (by decide +kernel) (by decide +kernel)).resolve_right
    (by decide +kernel)

/-- A domain that is cancelled between the two looks of `register` at its phase; the first poll of
the task is in progress while its creator gives up. -/
def racedRun : List (Action Unit Unit Unit) :=
  .call (.acquire ⟨.spawn, ⟨(), ()⟩⟩) :: List.replicate 5 (.run 0 .go) ++
    .call .cancel :: List.replicate 9 (.run 1 .go) ++ .poll 0 :: List.replicate 9 (.run 0 .go)

/-- Then the body begins, of a generation that nobody supervises. -/
theorem raced_begins_unregistered :
    ¬ ∀ (vs : List (State Unit Unit Unit)) (s s' : State Unit Unit Unit) (g : GenId),
      Trace (step (.single false)) (fun _ a => a.KeepsSupervisor) State.new vs s →
        step (.single false) s (.gate g) = some s' → s'.mem.task g = .running →
          s.mem.taskId g ≠ none := by
  intro h
  have hr : Trace (step (.single false)) (fun _ a => a.KeepsSupervisor) State.new
      (visited (step (.single false)) [State.new] State.new racedRun)
      ((afterwards false racedRun).get (by decide +kernel)) :=
    trace_exec (P := Action.KeepsSupervisor) (fun _ _ h => h) (by decide +kernel)
      (by decide +kernel)
  exact h _ _ _ 0 hr (Option.some_get (by decide +kernel)).symm (by decide +kernel)
    (by decide +kernel)

end Resourcery
