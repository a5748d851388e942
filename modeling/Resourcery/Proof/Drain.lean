import Resourcery.Proof.Progress

/-!
# Draining a domain

What a thread rests for comes about when the tasks end: the supervising future of a generation then
runs through, closes the outcome channel and takes its id out of the supervisor table; when the
table of a domain that has stopped accepting is empty, the domain terminates. So as long as tasks
end and the executor drops no supervising future before its first poll, every thread can come to its
end.
-/

namespace Resourcery

open Interleaving Function Transition ResourceContext

variable {R K E : Type}

/-! ## What some thread holds -/

/-- From `p` a thread goes on at `p'` and starts `c`: while there is something to hold, what `f`
counts of it is handed on, and what is new is held. -/
def Holds (H : Memory R K E → Prop) (f : Pc R K E → ℕ) (m : Memory R K E) (p : Pc R K E)
    (m' : Memory R K E) (p' : Pc R K E) (c : Option (Pc R K E)) : Prop :=
  H m' → f p ≤ f p' + (c.map f).getD 0 ∧ (¬ H m → 0 < f p')

/-- The thread holds the sender of the outcome channel of `g`. -/
def Pc.sender (g : GenId) : Pc R K E → ℕ
  | .supervise _ _ _ _ (.ended _) => 0
  | p => p.charge g

/-- The thread is about to spawn the task of `g`. -/
def Pc.spawner (g : GenId) : Pc R K E → ℕ
  | .acquire _ (.create _ (.spawnTask x)) => isGen g (some x)
  | _ => 0

namespace Memory

/-- The start gate of `g` is shut. -/
def Gated (g : GenId) (m : Memory R K E) : Prop := g < m.nextGen ∧ m.start g = .pending

/-- The outcome channel of `g` is open. -/
def Unclosed (g : GenId) (m : Memory R K E) : Prop := g < m.nextGen ∧ m.closed g = false

/-- The task of `g` has not been spawned. -/
def Unspawned (g : GenId) (m : Memory R K E) : Prop := g < m.nextGen ∧ m.task g = .unspawned

end Memory

variable {cfg : Config R K} {t u : Tid} {m m' : Memory R K E} {p p' : Pc R K E}
  {c : Option (Pc R K E)} {g x : GenId} {s s' : State R K E} {H : Memory R K E → Prop}
  {f : Pc R K E → ℕ}

theorem Holds.of_le (h : f p ≤ f p' + (c.map f).getD 0) (hH : H m' → H m) :
    Holds H f m p m' p' c :=
  fun hm => ⟨h, fun hn => absurd (hH hm) hn⟩

/-- The holder lets go of what belongs to `x`. -/
theorem Holds.ends (hf : f p = isGen g (some x)) (hH : H m' → g ≠ x ∧ H m) :
    Holds H f m p m' p' none := by
  intro hm
  obtain ⟨hx, hm⟩ := hH hm
  refine ⟨?_, fun hn => absurd hm hn⟩
  rw [hf, isGen, if_neg fun e => hx (Option.some.inj e).symm]
  exact Nat.zero_le _

/-- The holder of what belongs to a new generation. -/
theorem Holds.new {P : Memory R K E → Prop} (hn : m'.nextGen = m.nextGen + 1) (hP : P m' → P m)
    (h0 : f p = 0) (hf : f p' = isGen g (some m.nextGen)) :
    Holds (fun m => g < m.nextGen ∧ P m) f m p m' p' none := by
  rintro ⟨hg, hp⟩
  refine ⟨h0.trans_le (Nat.zero_le _), fun hnot => ?_⟩
  obtain hlt | rfl := Nat.lt_succ_iff_lt_or_eq.mp (hn ▸ hg)
  · exact absurd ⟨hlt, hP hp⟩ hnot
  · rw [hf]
    exact isGen_pos _

theorem ne_of_update {β : Type} {h : GenId → β} {a b : β} (hab : a ≠ b)
    (hu : update h x a g = b) : g ≠ x ∧ h g = b := by
  have hx : g ≠ x := by
    rintro rfl
    rw [update_self] at hu
    exact hab hu
  rw [update_of_ne hx] at hu
  exact ⟨hx, hu⟩

variable [DecidableEq R] [DecidableEq K]

/-- **What is handed on is held** in every state. -/
theorem held_of_reach {ok : State R K E → Action R K E → Prop} (hnew : ¬ H Memory.new)
    (hrun : ∀ t (m : Memory R K E) (p : Pc R K E),
      p.code.wp cfg t m fun m' p' c => Holds H f m p m' p' c)
    (hjump : ∀ (a : Action R K E) t p p', Jump a t p p' → f p ≤ f p')
    (htask : ∀ a (m : Memory R K E) g st, TaskCases m g a st → H (m.setTask g st) → H m)
    (hsame : ∀ m m' : Memory R K E, H m' → m'.nextGen = m.nextGen → m'.start = m.start →
      m'.task = m.task → m'.closed = m.closed → H m)
    (hr : Reach (step cfg) ok State.new s) (hm : H s.mem) : 0 < s.total f := by
  revert hm
  refine hr.invariant (fun s => H s.mem → 0 < s.total f) (fun h => absurd h hnew) ?_
  intro s a s' ih _ h
  refine total_step f (fun m n => H m → 0 < n) h ?_ ?_ ?_ ?_ ?_
  · rintro t p k - rfl - hn
    refine (hrun t s.mem (s.pc t)).mono fun m p' c hh hm => ?_
    obtain ⟨hle, hpos⟩ := hh hm
    by_cases h0 : H s.mem
    · have := ih h0
      omega
    · have := hpos h0
      omega
  · rintro t p p' k hj - hn hm
    have := hjump a t p p' hj
    have := ih hm
    omega
  · rintro c m p - hc hm
    have := ih (by cases hc <;> exact hsame _ _ hm rfl rfl rfl rfl)
    omega
  · exact fun g st ht hm => ih (htask a _ g st ht hm)
  · rintro m c hh hm
    have := ih (by cases hh <;> exact hsame _ _ hm rfl rfl rfl rfl)
    omega

theorem wp_holds (p : Pc R K E) : p.code.wp cfg t m fun m' p' c =>
    Holds (Memory.Gated g) (Pc.gate g) m p m' p' c ∧
      Holds (Memory.Unclosed g) (Pc.sender g) m p m' p' c ∧
        Holds (Memory.Unspawned g) (Pc.spawner g) m p m' p' c := by
  cases p using Pc.points
  case acquire_create_newEntry =>
    exact ⟨.new rfl id rfl rfl, .new rfl id rfl rfl, .new rfl id rfl rfl⟩
  case acquire_create_spawnTask =>
    refine ⟨.of_le (Nat.le_refl _) id, .of_le (Nat.le_refl _) id, .ends rfl fun h => ?_⟩
    obtain ⟨hx, ht⟩ := ne_of_update (fun h => by cases h) h.2
    exact ⟨hx, h.1, ht⟩
  case acquire_create_dropStart | acquire_settle_start | acquire_settle_lateStart
    | acquire_start =>
    refine ⟨.ends rfl fun h => ?_, .of_le (Nat.le_refl _) id, .of_le (Nat.le_refl _) id⟩
    obtain ⟨hx, hs⟩ := ne_of_update Start.noConfusion h.2
    exact ⟨hx, h.1, hs⟩
  case acquire_create_dropSender_none | acquire_create_dropSender_some | supervise_dropSender =>
    refine ⟨.of_le (Nat.le_refl _) id, .ends rfl fun h => ?_, .of_le (Nat.le_refl _) id⟩
    obtain ⟨hx, hc⟩ := ne_of_update Bool.noConfusion h.2
    exact ⟨hx, h.1, hc⟩
  case acquire_create_spawnSupervisor_none | acquire_create_spawnSupervisor_some =>
    exact ⟨.of_le (Nat.le_refl _) id, .of_le (Nat.le_of_eq (Nat.zero_add _).symm) id,
      .of_le (Nat.le_refl _) id⟩
  case acquire_guard_remove_entry | supervise_cleanup_entry =>
    refine ⟨?_, fun _ => ⟨fun _ _ => ?_, fun _ => ?_⟩⟩
    case' refine_2 =>
      dsimp only
      split
    all_goals exact ⟨.of_le (Nat.le_refl _) id, .of_le (Nat.le_refl _) id,
      .of_le (Nat.le_refl _) id⟩
  all_goals
    repeat' first
      | exact trivial
      | exact .of_le (Nat.le_refl _) id
      | exact .of_le (Nat.zero_le _) id
      | apply And.intro
      | intro _

section

variable {ok : State R K E → Action R K E → Prop} (hr : Reach (step cfg) ok State.new s)

include hr

/-- A gate that is shut has a sender. -/
theorem gate_pos_of_reach (hg : s.mem.Gated g) : 0 < s.total (Pc.gate g) := by
  refine held_of_reach (H := Memory.Gated g) (fun h => Nat.not_lt_zero _ h.1)
    (fun _ _ p => (wp_holds p).mono fun _ _ _ h => h.1) ?_ (fun _ _ _ _ _ h => h)
    (fun _ _ h h1 h2 _ _ => ⟨h1 ▸ h.1, h2 ▸ h.2⟩) hr hg
  intro a t p p' hj
  cases hj <;> exact Nat.le_refl _

/-- A channel that is open has a sender. -/
theorem sender_pos_of_reach (hg : s.mem.Unclosed g) : 0 < s.total (Pc.sender g) := by
  refine held_of_reach (H := Memory.Unclosed g) (fun h => Nat.not_lt_zero _ h.1)
    (fun _ _ p => (wp_holds p).mono fun _ _ _ h => h.2.1) ?_ (fun _ _ _ _ _ h => h)
    (fun _ _ h h1 _ _ h4 => ⟨h1 ▸ h.1, h4 ▸ h.2⟩) hr hg
  intro a t p p' hj
  cases hj <;> exact Nat.le_refl _

/-- The task of a registered generation has been spawned. -/
theorem spawned_of_reach (hg : s.mem.taskId g ≠ none) : s.mem.task g ≠ .unspawned := by
  intro ht
  obtain ⟨htab, hk⟩ := known_of_reach hr
  have hpos : 0 < s.total (Pc.spawner g) := by
    refine held_of_reach (H := Memory.Unspawned g) (fun h => Nat.not_lt_zero _ h.1)
      (fun _ _ p => (wp_holds p).mono fun _ _ _ h => h.2.2) ?_ ?_
      (fun _ _ h h1 _ h3 _ => ⟨h1 ▸ h.1, h3 ▸ h.2⟩) hr ⟨htab.lt_nextGen hg, ht⟩
    · intro a t p p' hj
      cases hj <;> exact Nat.le_refl _
    · intro a m x st hst h
      have hne : st ≠ .unspawned := by
        rintro rfl
        cases hst
      exact ⟨h.1, (ne_of_update hne h.2).2⟩
  obtain ⟨u, -, hu⟩ := Pool.exists_of_total_pos hpos
  have hk := hk u
  unfold Pc.spawner at hu
  split at hu
  · rename_i heq
    rw [heq] at hk
    obtain rfl := eq_of_isGen hu
    exact hg hk.2.1
  · exact absurd hu (Nat.lt_irrefl 0)

end

/-! ## Tasks come to their ends -/

/-- A thread takes its next step; or a task is polled, passes its gate, or ends. -/
def Action.prompt : Action R K E → Bool
  | .poll _ | .gate _ | .finish .. | .reap .. => true
  | a => a.calm

/-- No key operation panics, and the executor drops no supervising future before its first poll. -/
def Orderly (s : State R K E) (a : Action R K E) : Prop := a.KeysSound ∧ ¬ DropsUnpolled s a

/-- The runs of the scheduler in which tasks come to their ends. -/
abbrev Prompts (cfg : Config R K) : State R K E → State R K E → Prop :=
  Reach (step cfg) fun _ a => a.prompt = true

def TaskState.rank : TaskState E → ℕ
  | .unspawned | .ended _ => 0
  | .running => 1
  | .polling | .suspended => 2
  | .gated => 3

omit [DecidableEq R] [DecidableEq K] in
theorem Action.prompt_of_calm {a : Action R K E} (h : a.calm = true) : a.prompt = true := by
  cases a with
  | run t ch => exact h
  | _ => cases h

omit [DecidableEq R] [DecidableEq K] in
theorem orderly_of_prompt {a : Action R K E} (h : a.prompt = true) : Orderly s a := by
  constructor
  · cases a with
    | run t ch => exact Action.keysSound_of_calm h
    | _ => rfl
  · rintro ⟨t, i, g, id, site, rfl, -⟩
    cases h

omit [DecidableEq R] [DecidableEq K] in
theorem orderly_of_keeps {a : Action R K E} (h : a.KeysSound) (hk : a.KeepsSupervisor) :
    Orderly s a := by
  refine ⟨h, ?_⟩
  rintro ⟨t, i, g, id, site, rfl, -⟩
  cases hk

omit [DecidableEq R] [DecidableEq K] in
/-- A task that has been spawned and whose gate is open comes nearer to its end. -/
theorem task_moves (hstart : m.start g ≠ .pending) (hspawn : m.task g ≠ .unspawned)
    (he : (m.task g).hasEnded = false) : ∃ (a : Action R K E) (st : TaskState E),
      a.prompt = true ∧ a.taskOf = some g ∧ taskStep m g a = some st ∧ st ≠ .unspawned ∧
        st.rank < (m.task g).rank := by
  cases h : m.task g with
  | unspawned => exact absurd h hspawn
  | ended result =>
    rw [h] at he
    cases he
  | gated =>
    cases hab : m.aborted g with
    | false =>
      exact ⟨.poll g, .polling, rfl, rfl, by simp [taskStep, h, hab], (fun h => by cases h),
        Nat.le_of_ble_eq_true rfl⟩
    | true =>
      exact ⟨.reap g none, .ended (.ofDrop none), rfl, rfl, by simp [taskStep, h, hab],
        (fun h => by cases h), Nat.le_of_ble_eq_true rfl⟩
  | polling =>
    exact ⟨.gate g, .running, rfl, rfl, by simp [taskStep, h, hstart], (fun h => by cases h),
      Nat.le_of_ble_eq_true rfl⟩
  | running =>
    exact ⟨.finish g .ok, .ended .ok, rfl, rfl, by simp [taskStep, h], (fun h => by cases h),
      Nat.le_of_ble_eq_true rfl⟩
  | suspended =>
    cases hab : m.aborted g with
    | false =>
      exact ⟨.poll g, .running, rfl, rfl, by simp [taskStep, h, hab], (fun h => by cases h),
        Nat.le_of_ble_eq_true rfl⟩
    | true =>
      exact ⟨.reap g none, .ended (.ofDrop none), rfl, rfl, by simp [taskStep, h, hab],
        (fun h => by cases h), Nat.le_of_ble_eq_true rfl⟩

theorem step_of_task {a : Action R K E} {st : TaskState E} (ha : a.taskOf = some g)
    (h : taskStep s.mem g a = some st) :
    step cfg s a = some (s.setMem { s.mem with task := update s.mem.task g st }) := by
  have hmap : (taskStep s.mem g a).map (fun st => s.setMem { s.mem with
      task := update s.mem.task g st }) =
      some (s.setMem { s.mem with task := update s.mem.task g st }) := by rw [h]; rfl
  cases a <;> cases ha <;> exact hmap

/-- **A task can come to its end** while everything else stands still. -/
theorem task_ends (hstart : s.mem.start g ≠ .pending) (hspawn : s.mem.task g ≠ .unspawned) :
    ∃ task, Prompts cfg s (s.setMem { s.mem with task := task }) ∧
      (task g).hasEnded = true := by
  have hstep (v : State R K E)
      (hI : ∃ task, v = s.setMem { s.mem with task := task } ∧ task g ≠ .unspawned)
      (hG : ¬ (v.mem.task g).hasEnded = true) : ∃ v', Prompts cfg v v' ∧
        (∃ task, v' = s.setMem { s.mem with task := task } ∧ task g ≠ .unspawned) ∧
          (v'.mem.task g).rank < (v.mem.task g).rank := by
    obtain ⟨task, rfl, hspawn⟩ := hI
    obtain ⟨a, st, hp, ha, hst, hne, hlt⟩ := task_moves (m := { s.mem with task := task })
      hstart hspawn (Bool.eq_false_iff.mpr hG)
    refine ⟨_, .single ⟨a, hp, step_of_task ha hst⟩, ⟨update task g st, rfl, ?_⟩, ?_⟩
    · rw [update_self]
      exact hne
    · show (update task g st g).rank < _
      rw [update_self]
      exact hlt
  obtain ⟨s', hr, ⟨task, rfl, -⟩, hG⟩ := Reach.descend (fun v : State R K E => (v.mem.task g).rank)
    hstep ⟨s.mem.task, rfl, hspawn⟩
  exact ⟨task, hr, hG⟩

/-! ## Supervising futures run through -/

omit [DecidableEq R] [DecidableEq K] in
/-- A call of `create` is indebted until it has ended. -/
theorem indebted_of_create {q : Request R K} {site : Option Site} {p : CreatePc} :
    (Pc.acquire q (.create site p) : Pc R K E).indebted = true := by
  cases_type* CreatePc Domain.RegisterPc Control.CancelPc <;> rfl

omit [DecidableEq R] [DecidableEq K] in
theorem indebted_of_gate (h : 0 < p.gate g) : p.indebted = true := by
  cases p with
  | acquire q p =>
    cases p with
    | create site p => exact indebted_of_create
    | settle n generation x p => cases p <;> rfl
    | start => rfl
    | _ => exact absurd h (Nat.lt_irrefl 0)
  | _ => exact absurd h (Nat.lt_irrefl 0)

omit [DecidableEq R] [DecidableEq K] in
/-- A supervising future awaits the end of its task, or has ended. -/
theorem awaits_of_supervise {i : Ident R K} {id : ℕ} {site : Option Site} {q : SupervisePc E}
    (h : (Pc.supervise i g id site q).code.Awaits m) :
    (m.task g).hasEnded = false ∨ ∃ exit, q = .ended exit := by
  cases site, q using SupervisePc.points
  case join => exact .inl h
  case ended => exact .inr ⟨_, rfl⟩
  all_goals exact h.elim

theorem ended_of_reach {ok : State R K E → Action R K E → Prop}
    (hs : Reach (step cfg) ok State.new s) (hr : Reach (step cfg) ok s s')
    (he : (s.mem.task g).hasEnded = true) : (s'.mem.task g).hasEnded = true := by
  refine hr.invariant_of_reach (fun v => (v.mem.task g).hasEnded = true) he ?_
  exact fun v a v' hv ih _ h => ended_step h (known_of_reach (hs.trans hv)).2 ih

section

variable (hs : Reach (step cfg) Orderly State.new s)

include hs

theorem orderly_of_prompts (hr : Prompts cfg s s') : Reach (step cfg) Orderly State.new s' :=
  hs.trans (hr.mono fun _ _ => orderly_of_prompt)

/-- **The supervising future of a task can run through**, when nobody owes anything. -/
theorem supervisor_ends {i : Ident R K} {id : ℕ} {site : Option Site} {q : SupervisePc E}
    (hfree : s.Unlocked) (hpaid : ∀ u, (s.pc u).indebted = false)
    (hu : s.pc u = .supervise i g id site q) :
    ∃ s' exit, Prompts cfg s s' ∧ s'.pc u = .supervise i g id site (.ended exit) := by
  have hk := (known_of_reach hs).2 u
  rw [hu] at hk
  have hreg : s.mem.taskId g ≠ none := hk.2.1 ▸ Option.some_ne_none id
  have hstart : s.mem.start g ≠ .pending := by
    intro hp
    obtain ⟨w, -, hw⟩ := Pool.exists_of_total_pos (gate_pos_of_reach hs ⟨hk.1.1, hp⟩)
    exact nomatch (hpaid w).symm.trans (indebted_of_gate hw)
  have hspawn : s.mem.task g ≠ .unspawned := spawned_of_reach hs hreg
  obtain ⟨task, hr, he⟩ : ∃ task, Prompts cfg s (s.setMem { s.mem with task := task }) ∧
      (task g).hasEnded = true := task_ends hstart hspawn
  have hv := orderly_of_prompts hs hr
  generalize hv' : s.setMem { s.mem with task := task } = v at hr hv
  have hpc (w : Tid) : v.pc w = s.pc w := by rw [← hv']; rfl
  have he : (v.mem.task g).hasEnded = true := by rw [← hv']; exact he
  have hsound : Reach (step cfg) (fun _ a => a.KeysSound) State.new v := hv.mono fun _ _ h => h.1
  have hwork : (v.pc u).work = .supervise i g id site := by rw [hpc, hu]; rfl
  obtain ⟨s', hrun, -, ha⟩ := rests hsound (fun w => by rw [hpc]; exact hfree w)
    (lt_size_of_work hsound (by rw [hwork]; exact fun h => by cases h))
  have hw : (s'.pc u).work = .supervise i g id site :=
    (work_of_reach hv hrun.moves (by rw [hwork]; exact fun h => by cases h)).trans hwork
  have he' := ended_of_reach hsound (hrun.moves.mono fun _ _ => Action.keysSound_of_calm) he
  have hp' : Prompts cfg s s' := hr.trans (hrun.moves.mono fun _ _ => Action.prompt_of_calm)
  obtain ⟨p, hp⟩ := supervise_of_work hw
  rw [hp] at ha
  rcases awaits_of_supervise ha with hne | ⟨exit, rfl⟩
  · rw [he'] at hne
    cases hne
  · exact ⟨s', exit, hp', hp⟩

/-- An entry of the table of a domain that has stopped accepting can be taken out. -/
theorem retires {e : ℕ × GenId} : ∃ s', Prompts cfg s s' ∧ e ∉ s'.mem.tasks := by
  obtain ⟨v, hv, hfree, hpaid⟩ := pays (hs.mono fun _ _ h => h.1)
  have hv : Prompts cfg s v := hv.mono fun _ _ => Action.prompt_of_calm
  have hsv := orderly_of_prompts hs hv
  by_cases he : e ∈ v.mem.tasks
  · have hid := (known_of_reach hsv).1.entry e he
    obtain ⟨u, ⟨q, site, p, hp, -⟩ | ⟨i, site, p, hp⟩⟩ := in_charge hsv hid
    · have := hpaid u
      rw [hp, indebted_of_create] at this
      cases this
    · obtain ⟨s', exit, hr, hu⟩ := supervisor_ends hsv hfree hpaid hp
      have hul := unlisted_of_reach (fun _ _ h => h.2) (orderly_of_prompts hsv hr) u
      rw [hu] at hul
      exact ⟨s', hv.trans hr, fun he => hul rfl e he rfl⟩
  · exact ⟨v, hv, he⟩

/-- **A domain that has stopped accepting** can terminate. -/
theorem terminates (hm : ¬ s.mem.Accepting) : ∃ s', Prompts cfg s s' ∧ s'.Unlocked ∧
    (∀ u, (s'.pc u).indebted = false) ∧ s'.mem.phase = .terminated := by
  have hstep (v : State R K E) (hI : Prompts cfg s v ∧ ¬ v.mem.Accepting) (hG : v.mem.tasks ≠ []) :
      ∃ v', Prompts cfg v v' ∧ (Prompts cfg s v' ∧ ¬ v'.mem.Accepting) ∧
        v'.mem.tasks.toFinset.card < v.mem.tasks.toFinset.card := by
    obtain ⟨e, he⟩ := List.exists_mem_of_ne_nil _ hG
    have hv := orderly_of_prompts hs hI.1
    obtain ⟨v', hr, hnot⟩ := retires hv (e := e)
    have hsub := tasks_of_reach hv (hr.mono fun _ _ => orderly_of_prompt) hI.2
    refine ⟨v', hr, ⟨hI.1.trans hr, fun ha => hI.2 ((grows_of_reach hr).accepting ha)⟩,
      Finset.card_lt_card ?_⟩
    refine Finset.ssubset_iff_of_subset (fun x hx => ?_) |>.mpr ⟨e, ?_, ?_⟩
    · exact List.mem_toFinset.mpr (hsub x (List.mem_toFinset.mp hx))
    · exact List.mem_toFinset.mpr he
    · exact fun h => hnot (List.mem_toFinset.mp h)
  obtain ⟨v, -, ⟨hv, hmv⟩, hG⟩ := Reach.descend (G := fun v : State R K E => v.mem.tasks = [])
    (fun v : State R K E => v.mem.tasks.toFinset.card) hstep ⟨.refl, hm⟩
  have hsv := orderly_of_prompts hs hv
  obtain ⟨s', hr, hfree, hpaid⟩ := pays (hsv.mono fun _ _ h => h.1)
  have hr : Prompts cfg v s' := hr.mono fun _ _ => Action.prompt_of_calm
  have hss := orderly_of_prompts hsv hr
  refine ⟨s', hv.trans hr, hfree, hpaid, ?_⟩
  have hempty : s'.mem.tasks = [] := by
    refine List.eq_nil_iff_forall_not_mem.mpr fun e he => ?_
    have := tasks_of_reach hsv (hr.mono fun _ _ => orderly_of_prompt) hmv e he
    rw [hG] at this
    cases this
  have hsup : s'.mem.supervisor = none := by
    by_contra hn
    obtain ⟨u, hu⟩ := supervised_of_reach hss hn
    have := hfree u
    rw [Pc.locks, hu] at this
    cases this
  have hagree := (agrees_of_reach hss).1 hsup
  unfold Memory.Agree at hagree
  cases hph : s'.mem.phase with
  | running => exact absurd ((grows_of_reach hr).accepting hph) hmv
  | shuttingDown =>
    rw [hph] at hagree
    exact absurd hempty hagree.1
  | terminated => rfl

/-- The channel of a generation whose supervising future has ended is closed. -/
theorem closed_of_ended {i : Ident R K} {id : ℕ} {site : Option Site} {exit : Exit}
    (hu : s.pc u = .supervise i g id site (.ended exit)) : s.mem.closed g = true := by
  have hk := (known_of_reach hs).2 u
  rw [hu] at hk
  refine eq_true_of_ne_false fun hc => ?_
  obtain ⟨w, hw, hpos⟩ := Pool.exists_of_total_pos (sender_pos_of_reach hs ⟨hk.1.1, hc⟩)
  have hle : (s.pc w).sender g ≤ (s.pc w).charge g := by
    unfold Pc.sender
    split
    · exact Nat.zero_le _
    · exact Nat.le_refl _
  have hsize : u < s.size :=
    lt_size_of_ne_idle (fresh_of_reach hs) fun e => by rw [e] at hu; cases hu
  have hcharge : 0 < (s.pc u).charge g := by
    rw [hu]
    exact isGen_pos g
  obtain rfl := (charge_of_reach hs).eq hw hsize (hpos.trans_le hle) hcharge
  rw [hu] at hpos
  exact Nat.lt_irrefl 0 hpos

/-- **A channel can be closed**, when nobody owes anything. -/
theorem closes (hfree : s.Unlocked) (hpaid : ∀ u, (s.pc u).indebted = false)
    (hg : g < s.mem.nextGen) : ∃ s', Prompts cfg s s' ∧ s'.mem.closed g = true := by
  cases hc : s.mem.closed g with
  | true => exact ⟨s, .refl, hc⟩
  | false =>
    obtain ⟨u, -, hpos⟩ := Pool.exists_of_total_pos (sender_pos_of_reach hs ⟨hg, hc⟩)
    have hpay := hpaid u
    cases hp : s.pc u
    case acquire q p =>
      rw [hp] at hpos hpay
      cases p
      case create => exact nomatch hpay.symm.trans indebted_of_create
      all_goals exact absurd hpos (Nat.lt_irrefl 0)
    case supervise i x id site p =>
      have hx : x = g := by
        rw [hp] at hpos
        cases p <;> first | exact eq_of_isGen hpos | exact absurd hpos (Nat.lt_irrefl 0)
      subst hx
      obtain ⟨s', exit, hr, hu⟩ := supervisor_ends hs hfree hpaid hp
      exact ⟨s', hr, closed_of_ended (orderly_of_prompts hs hr) hu⟩
    all_goals
      rw [hp] at hpos
      exact absurd hpos (Nat.lt_irrefl 0)

end

/-! ## Every thread can come to its end -/

/-- The future of this call of `shutdown` or `terminate` has been dropped. -/
def Pc.gaveUp : Pc R K E → Bool
  | .shutdown .dropped | .terminate (.shutdown .dropped) => true
  | _ => false

omit [DecidableEq R] [DecidableEq K] in
theorem Pc.Rests.cases (h : p.Rests m) : p.code.halts = true ∨
    (∃ seen, p.awaitsQuiescence = some seen) ∧ m.phase ≠ .terminated ∨
      (∃ g seen, p = .wait g (.changed seen) ∧ m.closed g = false) ∨
        ∃ i g id site, p = .supervise i g id site .join := by
  unfold Pc.Rests at h
  split at h
  · exact .inr (.inl ⟨⟨_, rfl⟩, h⟩)
  · exact .inr (.inl ⟨⟨_, rfl⟩, h⟩)
  · exact .inr (.inr (.inl ⟨_, _, rfl, h.2⟩))
  · exact .inr (.inr (.inr ⟨_, _, _, _, rfl⟩))
  · exact .inl h

omit [DecidableEq R] [DecidableEq K] in
theorem work_of_awaitsQuiescence {seen : ℕ} (h : p.awaitsQuiescence = some seen) :
    p.work = .shutdown ∨ p.work = .terminate := by
  unfold Pc.awaitsQuiescence at h
  split at h
  · exact .inl rfl
  · exact .inr rfl
  · cases h

omit [DecidableEq R] [DecidableEq K] in
theorem stopped_of_awaitsQuiescence {seen : ℕ} (h : p.awaitsQuiescence = some seen)
    (hp : p.Past m) : ¬ m.Accepting := by
  unfold Pc.awaitsQuiescence at h
  split at h
  · exact hp.1.1
  · exact hp.1.1
  · cases h

theorem gaveUp_run : ∀ p : Pc R K E, p.gaveUp = false →
    p.code.wp cfg t m fun _ p' _ => p'.gaveUp = false := by
  intro p h
  have kept (hw : p.work ≠ .shutdown ∧ p.work ≠ .terminate) :
      p.code.wp cfg t m fun _ p' _ => p'.gaveUp = false := by
    refine (wp_work p).mono fun m' p' c hp => ?_
    have hw' := hp.1 ▸ hw
    cases p' with
    | shutdown => exact absurd rfl hw'.1
    | terminate => exact absurd rfl hw'.2
    | _ => rfl
  cases p
  case shutdown p | terminate p =>
    cases_type* Domain.TerminatePc Domain.ShutdownPc Domain.CancelPc Control.CancelPc
    all_goals
      repeat' first
        | exact trivial
        | exact rfl
        | apply And.intro
        | intro _
  all_goals exact kept ⟨(fun h => by cases h), fun h => by cases h⟩

omit [DecidableEq R] [DecidableEq K] in
theorem hasShutDown_of_halts (h : p.code.halts = true)
    (hw : p.work = .shutdown ∨ p.work = .terminate) (hu : p.gaveUp = false) :
    p.hasShutDown = true := by
  revert h hw hu
  cases p
  case shutdown | terminate =>
    cases_type* Domain.TerminatePc Domain.ShutdownPc Domain.CancelPc Control.CancelPc
    all_goals first
      | exact fun _ _ _ => rfl
      | exact fun h => Bool.noConfusion h
      | exact fun _ _ h => Bool.noConfusion h
  all_goals exact fun _ hw => by rcases hw with h | h <;> cases h

section

variable (hs : Reach (step cfg) Orderly State.new s)

include hs

/-- A future that is not dropped does not give up. -/
theorem gaveUp_of_prompts (hr : Prompts cfg s s') (hu : (s.pc u).gaveUp = false) :
    (s'.pc u).gaveUp = false := by
  refine hr.invariant_of_reach (fun v => (v.pc u).gaveUp = false) hu ?_
  intro v a v' hv ih ha h
  have hf := fresh_of_reach (orderly_of_prompts hs hv)
  rcases thread_cases h hf u with hpc | ⟨ch, mv, -, -, he, -, hp⟩ | ⟨hj, -⟩ | ⟨-, hi⟩
  · rw [hpc]
    exact ih
  · rw [hp]
    exact (gaveUp_run _ ih).sound he
  · revert hj
    generalize v.pc u = p
    generalize v'.pc u = p'
    intro hj
    cases hj <;> cases ha
  · revert hi
    generalize v'.pc u = p
    intro hi
    cases p with
    | shutdown p =>
      cases hi
      rfl
    | terminate p =>
      cases hi
      rfl
    | _ => rfl

/-- The threads alone bring a thread to where it rests, and all others to where they owe nothing. -/
theorem comes_to_rest (t : Tid) : ∃ s', Prompts cfg s s' ∧ s'.Unlocked ∧
    (∀ u, (s'.pc u).indebted = false) ∧ (s'.pc t).Rests s'.mem := by
  obtain ⟨v, hv, hfree, hpaid⟩ := pays (hs.mono fun _ _ h => h.1)
  have hv : Prompts cfg s v := hv.mono fun _ _ => Action.prompt_of_calm
  have hsv := orderly_of_prompts hs hv
  obtain ⟨w, hw, h⟩ := rests_of_paid (hsv.mono fun _ _ h => h.1) hfree hpaid t
  have hw : Prompts cfg v w := hw.moves.mono fun _ _ => Action.prompt_of_calm
  exact ⟨w, hv.trans hw, h⟩

/-- A call of `shutdown` that waits returns once the domain has terminated. -/
theorem shutdown_comes_to_end {seen : ℕ} (hq : (s.pc t).awaitsQuiescence = some seen) :
    ∃ s', Prompts cfg s s' ∧ (s'.pc t).code.halts = true := by
  have hwork := work_of_awaitsQuiescence hq
  have hm : ¬ s.mem.Accepting := stopped_of_awaitsQuiescence hq ((past_of_reach hs).2 t)
  obtain ⟨v, hv, -, -, hterm⟩ := terminates hs hm
  have hsv := orderly_of_prompts hs hv
  obtain ⟨s', hr, -, -, hrest⟩ := comes_to_rest hsv t
  have hwork' : (s'.pc t).work = .shutdown ∨ (s'.pc t).work = .terminate := by
    rw [work_of_reach hs (hv.trans hr)]
    · exact hwork
    · rcases hwork with h | h <;> rw [h] <;> exact fun h => by cases h
  refine ⟨s', hv.trans hr, ?_⟩
  rcases hrest.cases with hh | ⟨-, hne⟩ | ⟨g, seen, hp, -⟩ | ⟨i, g, id, site, hp⟩
  · exact hh
  · exact absurd ((grows_of_reach hr).terminated hterm) hne
  all_goals
    rw [hp] at hwork'
    rcases hwork' with h | h <;> cases h

/-- An observer that waits returns once the channel is closed. -/
theorem wait_comes_to_end {seen : ℕ} (hfree : s.Unlocked) (hpaid : ∀ u, (s.pc u).indebted = false)
    (hp : s.pc t = .wait g (.changed seen)) :
    ∃ s', Prompts cfg s s' ∧ (s'.pc t).code.halts = true := by
  have hwork : (s.pc t).work = .wait g := by rw [hp]; rfl
  have hne : (s.pc t).work ≠ .nothing := by rw [hwork]; exact fun h => by cases h
  have hg : g < s.mem.nextGen := by
    have hle := (watched_of_reach hs).receives_le (lt_size_of_work hs hne) g
    by_contra hn
    rw [(watched_of_reach hs).fresh g (Nat.le_of_not_lt hn), hp] at hle
    exact absurd (isGen_pos g) (Nat.not_lt.mpr hle)
  obtain ⟨v, hv, hc⟩ := closes hs hfree hpaid hg
  have hsv := orderly_of_prompts hs hv
  obtain ⟨s', hr, -, -, hrest⟩ := comes_to_rest hsv t
  have hwork' : (s'.pc t).work = .wait g := (work_of_reach hs (hv.trans hr) hne).trans hwork
  refine ⟨s', hv.trans hr, ?_⟩
  rcases hrest.cases with hh | ⟨⟨seen, hq⟩, -⟩ | ⟨x, seen, hp, hx⟩ | ⟨i, x, id, site, hp⟩
  · exact hh
  · rcases work_of_awaitsQuiescence hq with h | h <;> exact nomatch h.symm.trans hwork'
  · rw [hp] at hwork'
    cases hwork'
    exact nomatch hx.symm.trans ((grows_of_reach hr).closed _ hc)
  · rw [hp] at hwork'
    cases hwork'

theorem comes_to_end (t : Tid) : ∃ s', Prompts cfg s s' ∧ (s'.pc t).code.halts = true := by
  obtain ⟨v, hv, hfree, hpaid, hrest⟩ := comes_to_rest hs t
  have hsv := orderly_of_prompts hs hv
  have later (h : ∃ s', Prompts cfg v s' ∧ (s'.pc t).code.halts = true) :
      ∃ s', Prompts cfg s s' ∧ (s'.pc t).code.halts = true := by
    obtain ⟨s', hr, hh⟩ := h
    exact ⟨s', hv.trans hr, hh⟩
  rcases hrest.cases with hh | ⟨⟨seen, hq⟩, -⟩ | ⟨g, seen, hp, -⟩ | ⟨i, g, id, site, hp⟩
  · exact ⟨v, hv, hh⟩
  · exact later (shutdown_comes_to_end hsv hq)
  · exact later (wait_comes_to_end hsv hfree hpaid hp)
  · obtain ⟨s', exit, hr, hu⟩ := supervisor_ends hsv hfree hpaid hp
    exact ⟨s', hv.trans hr, by rw [hu]; rfl⟩

end

/-- A generation whose task is running, and a call of `shutdown` that waits for it. -/
def drainingRun : List (Action Unit Unit Unit) :=
  .call (.acquire ⟨.spawn, ⟨(), ()⟩⟩) :: List.replicate 14 (.run 0 .go) ++
    [.poll 0, .gate 0] ++ .call .shutdown :: List.replicate 6 (.run 2 .go) ++
    .run 2 (.pick 0) :: List.replicate 6 (.run 2 .go)

end Resourcery
