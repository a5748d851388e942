import Resourcery.Proof.Barrier
import Resourcery.Proof.Cleanup
import Resourcery.Proof.Index
import Resourcery.Proof.Outcomes

/-!
# Shutdown is complete

A terminated domain supervises nothing. So the supervising future of every generation that was ever
registered has run through its last steps: the control is finished, the outcome published, the
establishment gone, and its id in no table.
-/

namespace Resourcery

open Interleaving Transition ResourceContext

variable {R K E : Type} [DecidableEq R] [DecidableEq K]

variable {cfg : Config R K} {t u v : Tid} {m m' : Memory R K E} {p : Pc R K E} {g : GenId}
  {i : Ident R K} {x : Site} {s s' : State R K E} {a : Action R K E}
  {ok : State R K E → Action R K E → Prop} {es : List (State R K E × Action R K E)}

/-! ## Registrations -/

/-- A domain that does not accept registers nothing. -/
theorem wp_unregistered {α : Type} {ins : Instr R K E α} (ht : ins.Timely m) (hm : ¬ m.Accepting) :
    ins.wp cfg t m fun m' _ _ => m'.taskId = m.taskId := by
  cases ins
  case insertTask => exact absurd ht hm
  all_goals
    repeat' first
      | exact trivial
      | exact rfl
      | apply And.intro
      | intro _

theorem registered_of_reach (hs : Reach (step cfg) ok State.new s) (hr : Reach (step cfg) ok s s')
    (hm : ¬ s.mem.Accepting) : s'.mem.taskId = s.mem.taskId := by
  refine hr.invariant_of_reach (fun w => w.mem.taskId = s.mem.taskId) rfl ?_
  intro w a w' hw ih _ h
  have hacc : ¬ w.mem.Accepting := fun ha => hm ((grows_of_reach hw).accepting ha)
  refine .trans ?_ ih
  refine mem_step (fun m => m.taskId = w.mem.taskId) h rfl ?_ ?_ (fun _ _ _ => rfl) ?_
  · rintro t p - rfl -
    exact wp_unregistered (timely_of_agrees ((agrees_of_reach (hs.trans hw)).2 t)) hacc
  · rintro c m p - hc
    cases hc <;> rfl
  · rintro m c hh
    cases hh <;> rfl

/-! ## Publications -/

/-- A supervising future comes to have published by its publication step. -/
theorem publishes_run {id : ℕ} {site : Option Site} {p : SupervisePc E} (hp : p.published = false) :
    (Pc.supervise i g id site p).code.wp cfg t m fun _ p' _ =>
      (∃ q, p' = .supervise i g id site q ∧ q.published = false) ∨
        (Pc.supervise i g id site p : Pc R K E).code.sends? = some g := by
  cases_type* SupervisePc Domain.FinishedPc Registry.RemovePc Exit
  case' finish => cases site
  case' finalize.unwound.dropSupervisor b | finalize.dropped.dropSupervisor b
    | cleanup.dropState b => cases b
  case publish => exact ⟨fun _ => .inr rfl, fun _ => .inr rfl⟩
  case cleanup.entry =>
    refine ⟨.inl ⟨_, rfl, rfl⟩, fun _ => ⟨fun _ _ => ?_, fun _ => .inl ⟨_, rfl, rfl⟩⟩⟩
    dsimp only
    split <;> exact .inl ⟨_, rfl, rfl⟩
  all_goals
    repeat' first
      | exact trivial
      | exact .inl ⟨_, rfl, rfl⟩
      | apply And.intro
      | intro _
      | cases hp

omit [DecidableEq R] [DecidableEq K] in
theorem supervise_of_work {id : ℕ} {site : Option Site} (h : p.work = .supervise i g id site) :
    ∃ q, p = .supervise i g id site q := by
  cases p with
  | supervise =>
    cases h
    exact ⟨_, rfl⟩
  | _ => cases h

/-- A supervising future that has published has taken its publication step. -/
theorem happened_of_published (hs : History (step cfg) ok State.new es s) {id : ℕ}
    {site : Option Site} {p : SupervisePc E} (hv : s.pc v = .supervise i g id site p)
    (hp : p.published = true) : Happened (Publishes g) es := by
  suffices hall : ∀ p, s.pc v = .supervise i g id site p → p.published = true →
      Happened (Publishes g) es from hall p hv hp
  refine hs.invariant (fun es s => ∀ p, s.pc v = .supervise i g id site p → p.published = true →
    Happened (Publishes g) es) (fun _ h => nomatch h) ?_
  intro es s a s' hs ih ha h p' hv' hp'
  have hf := fresh_of_reach hs
  -- it has been at work before this step, or is new
  rcases thread_cases h hf v with he | ⟨ch, mv, rfl, -, he, -, hpc⟩ | ⟨hj, -⟩ | ⟨-, hi⟩
  · exact happened_cons.mpr (.inr (ih p' (he.symm.trans hv') hp'))
  · have hwork := work_step h hf (u := v) fun hidle => by rw [hidle] at he; cases he
    obtain ⟨q, hq⟩ := supervise_of_work (hwork.symm.trans (congrArg Pc.work hv'))
    cases hpub : q.published with
    | true => exact happened_cons.mpr (.inr (ih q hq hpub))
    | false =>
      rw [hq] at he
      rcases (publishes_run hpub).sound he with ⟨r, hr, hrp⟩ | hpubl
      · cases (hpc.symm.trans hv').symm.trans hr
        exact nomatch hp'.symm.trans hrp
      · exact happened_cons.mpr (.inl ⟨v, rfl, hq ▸ hpubl⟩)
  · rw [hv'] at hj
    generalize s.pc v = q at hj
    cases hj <;> cases hp'
  · rw [hv'] at hi
    cases hi
    cases hp'

/-! ## A terminated domain -/

variable (hok : ∀ s a, ok s a → a.KeepsSupervisor ∧ a.KeysSound)

include hok

/-- In a terminated domain the supervising future of every registered generation has taken its id
out of the table. -/
theorem removed_of_terminated (hs : Reach (step cfg) ok State.new s)
    (ht : s.mem.phase = .terminated) {id : ℕ} (hg : s.mem.taskId g = some id) :
    ∃ u i site p, s.pc u = .supervise i g id site p ∧ p.removed = true ∧ p.published = true := by
  rcases listed_or_removed hs hg with hl | ⟨u, i, site, p, hp, hrem⟩
  · rw [terminated_of_reach hs ht] at hl
    cases hl
  · refine ⟨u, i, site, p, hp, hrem, ?_⟩
    have hran := ran_of_reach (fun s a ha => (hok s a ha).1) hs u
    rw [hp] at hran
    cases p with
    | finalize exit q | dropSender exit | ended exit =>
      obtain rfl : exit = .ran := hran
      rfl
    | _ => cases hrem

/-- The establishment of a generation registered in a terminated domain is gone. -/
theorem left_of_terminated (hs : Reach (step cfg) ok State.new s) (ht : s.mem.phase = .terminated)
    (hg : s.mem.taskId g ≠ none) (hi : s.mem.ident g = some i) (hx : s.mem.site g = some x) :
    s.mem.Left i x := by
  obtain ⟨id, hid⟩ := Option.ne_none_iff_exists'.mp hg
  obtain ⟨u, j, site, p, hp, hrem, hpub⟩ := removed_of_terminated hok hs ht hid
  have hgone := gone_of_reach (fun s a ha => (hok s a ha).2) hs u
  have hk := (known_of_reach hs).2 u
  rw [hp] at hgone hk
  obtain rfl : i = j := Option.some.inj (hi.symm.trans hk.1.2.1)
  obtain rfl : some x = site := hx.symm.trans hk.1.2.2
  cases p with
  | finalize exit q | dropSender exit | ended exit =>
    cases exit with
    | ran => exact hgone rfl
    | _ => cases hpub
  | _ => cases hrem

/-- In a terminated domain no slot that is attached is active. -/
theorem not_active_of_terminated (hs : Reach (step cfg) ok State.new s)
    (ht : s.mem.phase = .terminated) {n : ℕ} (ha : s.mem.Attached i n) (generation : ℕ)
    (g : GenId) : s.mem.state i n ≠ .active generation g := by
  intro hst
  obtain ⟨hmade, hg⟩ := (sited_of_reach hs).sites.active i n generation g hst
  have hl := left_of_terminated hok hs ht hg hmade.2.1 hmade.2.2
  exact hl.not_attached ⟨ha, by rw [hst]; rfl⟩

/-- In a terminated domain no control is active. -/
theorem control_ne_active_of_terminated (hs : Reach (step cfg) ok State.new s)
    (ht : s.mem.phase = .terminated) (g : GenId) : s.mem.control g ≠ .active := by
  intro hg
  rcases listed_of_active (fun s a ha => (hok s a ha).1) hs hg with ⟨id, hl⟩ | ⟨u, q, site, hu⟩
  · rw [terminated_of_reach hs ht] at hl
    cases hl
  · have hag := (agrees_of_reach hs).2 u
    rw [hu] at hag
    exact not_accepting_of_terminated ht hag

omit hok

/-! ## Completeness -/

omit [DecidableEq R] [DecidableEq K] in
theorem unindexed_of_removed {p : SupervisePc E} (h : p.removed = true) (hp : p.published = true) :
    p.unindexed = true := by
  cases p with
  | finalize exit q | dropSender exit | ended exit => cases exit <;> first | rfl | cases hp
  | _ => cases h

/-- A call of `shutdown` or `terminate` has returned. -/
def Pc.hasShutDown : Pc R K E → Bool
  | .shutdown .returned | .terminate (.shutdown .returned) => true
  | _ => false

omit [DecidableEq R] [DecidableEq K] in
theorem terminated_of_hasShutDown (h : p.hasShutDown = true) (hp : p.Past m) :
    m.phase = .terminated := by
  unfold Pc.hasShutDown at h
  split at h
  · exact hp.2
  · exact hp.2
  · cases h

/-- **Shutdown is complete**, in every run in which supervising futures run to their end and no key
operation panics. When a call of `shutdown` or `terminate` has returned, every generation that was
ever registered has a finished control, its outcome has been published, its establishment is not
attached, and its id is in neither table; no slot that is attached is active; and in every later
state nothing more has been registered, and no control and no attached slot is active. -/
theorem shutdown_is_complete
    (hs : History (step cfg) (fun _ a => a.KeepsSupervisor ∧ a.KeysSound) State.new es s)
    (hr : Reach (step cfg) (fun _ a => a.KeepsSupervisor ∧ a.KeysSound) s s')
    (ht : (s.pc t).hasShutDown = true) :
    (∀ g id, s.mem.taskId g = some id →
      s.mem.control g = .finished ∧ Happened (Publishes g) es ∧
      (∀ i x, s.mem.ident g = some i → s.mem.site g = some x →
        ¬ (s.mem.Attached i x.slot ∧ (s.mem.state i x.slot).generation = x.generation)) ∧
      (∀ r, ∀ e ∈ s.mem.live r, e.1 ≠ id) ∧ ∀ e ∈ s.mem.tasks, e.1 ≠ id) ∧
    (∀ i n generation g, s.mem.Attached i n → s.mem.state i n ≠ .active generation g) ∧
    (∀ g, s'.mem.taskId g ≠ none → s.mem.taskId g ≠ none) ∧
    (∀ g, s'.mem.control g ≠ .active) ∧
    ∀ i n generation g, s'.mem.Attached i n → s'.mem.state i n ≠ .active generation g := by
  have hreach := hs.reach
  have hreach' := hreach.trans hr
  have hok : ∀ (s : State R K E) (a : Action R K E), a.KeepsSupervisor ∧ a.KeysSound →
      a.KeepsSupervisor ∧ a.KeysSound := fun _ _ => id
  have hterm := terminated_of_hasShutDown ht ((past_of_reach hreach).2 t)
  have hterm' := (grows_of_reach hr).terminated hterm
  refine ⟨fun g id hg => ?_, fun i n generation g ha =>
    not_active_of_terminated hok hreach hterm ha generation g, fun g => ?_,
    control_ne_active_of_terminated hok hreach' hterm', fun i n generation g ha =>
    not_active_of_terminated hok hreach' hterm' ha generation g⟩
  · obtain ⟨u, j, site, p, hp, hrem, hpub⟩ := removed_of_terminated hok hreach hterm hg
    refine ⟨finished_of_removed (fun _ _ h => h.1) hreach hp hrem, happened_of_published hs hp hpub,
      fun i x hi hx => ?_, ?_, ?_⟩
    · exact (left_of_terminated hok hreach hterm (by rw [hg]; nofun) hi hx).not_attached
    · have hidx := indexedAt_of_reach hreach u
      rw [hp] at hidx
      unfold Pc.Indexed at hidx
      simp only [unindexed_of_removed hrem hpub] at hidx
      exact hidx
    · rw [terminated_of_reach hreach hterm]
      exact nofun
  · rw [registered_of_reach hreach hr (not_accepting_of_terminated hterm)]
    exact id

/-- A generation whose domain is shut down and whose task then completes. -/
def completeRun : List (Action Unit Unit Unit) :=
  .call (.acquire ⟨.getOrSpawn, ⟨(), ()⟩⟩) :: List.replicate 26 (.run 0 .go) ++
    .call .shutdown :: List.replicate 6 (.run 2 .go) ++ .run 2 (.pick 0) ::
    List.replicate 6 (.run 2 .go) ++ [.poll 0, .gate 0, .finish 0 .ok] ++
    List.replicate 18 (.run 1 .go) ++ List.replicate 3 (.run 2 .go)

theorem completeRun_published :
    Happened (Publishes 0) (events (step (.single true)) [] State.new completeRun) := by
  have hs : History (step (.single true)) (fun _ a => a.KeepsSupervisor ∧ a.KeysSound) State.new
      (events (step (.single true)) [] State.new completeRun)
      ((exec (step (.single true)) State.new completeRun).get (by decide +kernel)) :=
    history_exec (P := fun a : Action Unit Unit Unit => a.KeepsSupervisor ∧ a.KeysSound)
      (fun _ _ h => h)
      (by decide +kernel) _
  exact ((shutdown_is_complete (t := 2) hs .refl (by decide +kernel)).1 0 0
    (by decide +kernel)).2.1

end Resourcery
