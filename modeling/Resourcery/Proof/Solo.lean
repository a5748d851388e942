import Resourcery.Proof.Ranks
import Resourcery.Proof.Supervision

/-!
# A thread that runs alone

A thread that nobody blocks runs to a point at which it has ended or awaits an event, while all
others stand still but the destructors it runs on its own stack. `run_until` is the rule for such
runs; the measure is the rank.
-/

namespace Resourcery

open Interleaving Function Transition ResourceContext

variable {R K E : Type}

/-! ## What a thread can wait for -/

/-- The thread has ended, or the event it awaits has not happened. -/
def Instr.Awaits {α : Type} (m : Memory R K E) : Instr R K E α → Prop
  | .halt => True
  | .awaitNotified seen _ => m.quiescent ≤ seen
  | .awaitListener i n seen _ => m.changed i n ≤ seen
  | .join g _ => (m.task g).hasEnded = false
  | .hasChanged g seen _ _ => m.version g = seen ∧ m.closed g = false
  | _ => False

/-- The lock the thread is about to take is held. -/
def Instr.Blocked {α : Type} (cfg : Config R K) (m : Memory R K E) : Instr R K E α → Prop
  | .lockSupervisor _ => m.supervisor ≠ none
  | .lockShard i _ _ | .slot i _ _ => m.shard i.ty (cfg.shardOf i) ≠ none
  | .lockSlot i n _ => m.slotLock i n ≠ none
  | _ => False

/-- A choice of the scheduler: no panic and no spurious failure. -/
def Choice.calm : Choice → Bool
  | .go | .pick _ => true
  | _ => false

/-- A thread takes its next step by such a choice. -/
def Action.calm : Action R K E → Bool
  | .run _ ch => ch.calm
  | _ => false

variable {cfg : Config R K} {t u d : Tid} {ch : Choice} {m m' : Memory R K E} {p p' : Pc R K E}
  {g : GenId} {s s' : State R K E}

theorem Choice.ne_of_calm (h : ch.calm = true) : ch ≠ .spurious ∧ ch ≠ .keyPanics := by
  constructor <;> rintro rfl <;> cases h

theorem Action.keysSound_of_calm {a : Action R K E} (h : a.calm = true) : a.KeysSound := by
  cases a with
  | run t ch => cases ch <;> first | rfl | cases h
  | _ => rfl

variable [DecidableEq R] [DecidableEq K]

/-- **A thread that neither awaits an event nor is blocked can take a step.** -/
theorem exists_execute {α : Type} {ins : Instr R K E α} (ha : ¬ ins.Awaits m)
    (hb : ¬ ins.Blocked cfg m) :
    ∃ ch mv, ch.calm = true ∧ execute cfg t ch m ins = some mv := by
  have go (h : (execute cfg t .go m ins).isSome = true) :
      ∃ ch mv, ch.calm = true ∧ execute cfg t ch m ins = some mv := by
    obtain ⟨mv, hmv⟩ := Option.isSome_iff_exists.mp h
    exact ⟨.go, mv, rfl, hmv⟩
  cases ins
  case halt => exact absurd trivial ha
  case awaitNotified seen k => exact ⟨.go, _, rfl, if_pos (Nat.lt_of_not_le ha)⟩
  case awaitListener i n seen k => exact ⟨.go, _, rfl, if_pos (Nat.lt_of_not_le ha)⟩
  case lockSupervisor k => exact ⟨.go, _, rfl, if_pos (not_not.mp hb)⟩
  case lockSlot i n k => exact ⟨.go, _, rfl, if_pos (not_not.mp hb)⟩
  case lockShard i panic k | slot i panic k =>
    refine go ?_
    have hgo : Choice.go ≠ .keyPanics := fun h => by cases h
    simp only [execute, if_neg hgo, if_pos (not_not.mp hb)]
    rfl
  case join g k =>
    refine go ?_
    have he : (m.task g).hasEnded ≠ false := ha
    simp only [execute]
    cases h : m.task g with
    | ended result => rfl
    | _ =>
      rw [h] at he
      exact absurd rfl he
  case hasChanged g seen k gone =>
    refine go ?_
    simp only [execute]
    split
    · rfl
    · rename_i hv
      rw [if_pos]
      · rfl
      · exact eq_true_of_ne_false fun hc => ha ⟨not_not.mp hv, hc⟩
  case nextLive r keys seen yield stop =>
    by_cases h : ∀ n ∈ keys, n ∈ (m.live r).map Prod.fst → n ∈ seen.map Prod.fst
    · exact ⟨.go, _, rfl, if_pos h⟩
    · -- the iteration goes on with an element it has not seen
      obtain ⟨n, hn⟩ := not_forall.mp h
      obtain ⟨-, hn⟩ := Classical.not_imp.mp hn
      obtain ⟨hlive, hseen⟩ := Classical.not_imp.mp hn
      obtain ⟨e, he, rfl⟩ := List.mem_map.mp hlive
      have hfind : ((m.live r).find? (·.1 = e.1)).isSome = true :=
        List.find?_isSome.mpr ⟨e, he, decide_eq_true rfl⟩
      obtain ⟨e', he'⟩ := Option.isSome_iff_exists.mp hfind
      refine ⟨.pick e.1, ⟨m, yield e', none, false⟩, rfl, ?_⟩
      simp only [execute, he', if_neg hseen]
      rfl
  case pick gs k stop =>
    cases gs with
    | nil => exact ⟨.go, _, rfl, rfl⟩
    | cons g gs => exact ⟨.pick 0, _, rfl, rfl⟩
  case exchangeShuttingDown | exchangeActive | exchangeCancelling | upgrade | dropStrong | send =>
    refine go ?_
    simp only [execute]
    split <;> rfl
  all_goals exact ⟨.go, _, rfl, rfl⟩

/-! ## Destructors -/

/-- The destructor an instruction may start. -/
def Instr.destructor? {α : Type} : Instr R K E α → Option α
  | .dropStrong _ destructor _ => some destructor
  | _ => none

omit [DecidableEq R] [DecidableEq K] in
theorem destructor_of_code : ∀ c, p.code.destructor? = some c →
    (∃ g, c = .destructor g) ∧ p.work ≠ .nothing ∧ ∀ x, p.work ≠ .drop x := by
  cases p using Pc.points
  all_goals intro c h; first
    | exact absurd (h : none = some c) nofun
    | exact ⟨⟨_, (Option.some.inj h).symm⟩, (fun h => by cases h), fun _ h => by cases h⟩

/-- What a thread awaits after a step of its own is the thread it has started. -/
theorem child_of_awaits {destructor k : Pc R K E} {c : Tid}
    (h : step cfg s (.run u ch) = some s') (hcode : (s.pc u).code = .dropStrong g destructor k)
    (hc : (s'.thread u).awaits = some c) : s'.pc c = destructor := by
  cases step_cases h with
  | @run _ _ mv hr he =>
    rw [Pool.advance_awaits hr.1] at hc
    split_ifs at hc with hj
    cases hc
    obtain ⟨g', destructor', hcode', h1⟩ := joins_cases he hj
    rw [hcode] at hcode' he
    cases hcode'
    simp only [execute, if_pos h1] at he
    exact Pool.advance_pc_child (congrArg Move.child (Option.some.inj he)).symm
  | jump _ hj => cases hj
  | task ha => cases ha
  | hold hh => cases hh

/-- What is awaited is a destructor, and no destructor awaits another one. -/
theorem destructor_of_awaited {ok : State R K E → Action R K E → Prop}
    (hs : Reach (step cfg) ok State.new s) (u c : Tid) : (s.thread u).awaits = some c →
      (∃ g, (s.pc c).work = .drop g) ∧ (s.pc u).work ≠ .nothing ∧
        ∀ g, (s.pc u).work ≠ .drop g := by
  revert u c
  refine hs.invariant_of_reach (fun s => ∀ u c, (s.thread u).awaits = some c →
    (∃ g, (s.pc c).work = .drop g) ∧ (s.pc u).work ≠ .nothing ∧ ∀ g, (s.pc u).work ≠ .drop g)
    (fun _ _ h => nomatch h) ?_
  intro s a s' hs ih _ h u c hc
  have hf := fresh_of_reach hs
  have kept {v : Tid} (hv : (s.pc v).work ≠ .nothing) : (s'.pc v).work = (s.pc v).work :=
    work_step h hf fun e => hv (by rw [e]; rfl)
  rcases awaits_cases h hc with ⟨hold, -⟩ | ⟨g, destructor, hcode, -, ch, rfl⟩
  · obtain ⟨⟨g, hg⟩, hu, hd⟩ := ih u c hold
    rw [kept hu, kept fun e => by rw [hg] at e; cases e]
    exact ⟨⟨g, hg⟩, hu, hd⟩
  · obtain ⟨⟨g, rfl⟩, hu, hd⟩ := destructor_of_code _ (congrArg Instr.destructor? hcode)
    rw [kept hu]
    refine ⟨⟨g, ?_⟩, hu, hd⟩
    rw [child_of_awaits h hcode hc]
    rfl

/-- From `s` to `s'` only the destructor of thread `d` has run. -/
structure Destroys (d : Tid) (s s' : State R K E) : Prop where
  size : s'.size = s.size
  thread : ∀ u, u ≠ d → s'.thread u = s.thread u
  mem : s'.mem = { s.mem with
    control := s'.mem.control
    cancels := s'.mem.cancels
    receivers := s'.mem.receivers }

/-- What a destructor does to the memory. -/
theorem drop_run (q : Entry.DropPc) : (Pc.drop g q : Pc R K E).code.wp cfg t m fun m' _ c =>
    c = none ∧ m' = { m with
      control := m'.control
      cancels := m'.cancels
      receivers := m'.receivers } := by
  cases q
  case cancel q => exact Control.wp_cancel (fun _ _ _ => ⟨rfl, rfl⟩) fun _ _ => ⟨rfl, rfl⟩
  case fields => exact ⟨rfl, rfl⟩
  case finished => trivial

omit [DecidableEq R] [DecidableEq K] in
theorem drop_of_work (h : p.work = .drop g) : ∃ q, p = .drop g q := by
  cases p <;> cases h
  exact ⟨_, rfl⟩

theorem step_of_ready {mv : Move (Memory R K E) (Pc R K E)} (hr : s.Ready t)
    (he : execute cfg t ch s.mem (s.pc t).code = some mv) :
    step cfg s (.run t ch) = some (s.advance t mv) := by
  show (if s.Ready t then _ else none) = _
  rw [if_pos hr, he]
  rfl

theorem lt_size_of_work {ok : State R K E → Action R K E → Prop}
    (hs : Reach (step cfg) ok State.new s) (h : (s.pc u).work ≠ .nothing) : u < s.size :=
  lt_size_of_ne_idle (fresh_of_reach hs) fun e => h (by rw [e]; rfl)

/-- The runs of the scheduler. -/
abbrev Moves (cfg : Config R K) : State R K E → State R K E → Prop :=
  Reach (step cfg) fun _ a => a.calm = true

theorem keysSound_of_moves (hs : Reach (step cfg) (fun _ a => a.KeysSound) State.new s)
    (hr : Moves cfg s s') : Reach (step cfg) (fun _ a => a.KeysSound) State.new s' :=
  hs.trans (hr.mono fun _ _ => Action.keysSound_of_calm)

/-- **A destructor can run to its end.** -/
theorem destroy (hs : Reach (step cfg) (fun _ a => a.KeysSound) State.new s)
    (hd : (s.pc d).work = .drop g) :
    ∃ s', Moves cfg s s' ∧ Destroys d s s' ∧ (s'.pc d).destroyed = true := by
  have hstep (v : State R K E) (hI : Moves cfg s v ∧ Destroys d s v ∧ (v.pc d).work = .drop g)
      (hG : ¬ (v.pc d).destroyed = true) : ∃ v', Moves cfg v v' ∧
        (Moves cfg s v' ∧ Destroys d s v' ∧ (v'.pc d).work = .drop g) ∧
          (v'.pc d).rank v'.mem < (v.pc d).rank v.mem := by
    obtain ⟨hr, hdes, hw⟩ := hI
    have hv := keysSound_of_moves hs hr
    obtain ⟨q, hq⟩ := drop_of_work hw
    have hq' : q ≠ .finished := by
      rintro rfl
      exact hG (by rw [hq]; rfl)
    have hsize : d < v.size := lt_size_of_work hv (by rw [hw]; exact fun h => by cases h)
    have hready : v.Ready d :=
      ⟨hsize, fun c hc => absurd hw ((destructor_of_awaited hv d c hc).2.2 g)⟩
    have hawaits : ¬ (v.pc d).code.Awaits v.mem ∧ ¬ (v.pc d).code.Blocked cfg v.mem := by
      rw [hq]
      cases q with
      | cancel q => cases q <;> exact ⟨id, id⟩
      | fields => exact ⟨id, id⟩
      | finished => exact absurd rfl hq'
    obtain ⟨ch, mv, hc, he⟩ := exists_execute (t := d) hawaits.1 hawaits.2
    have hlt := rank_lt he (Choice.ne_of_calm hc).1
    have hmv := ((drop_run q).sound (hq ▸ he))
    have hone := step_of_ready hready he
    have hw' := (work_step hone (fresh_of_reach hv) fun e => by rw [e] at hw; cases hw).trans hw
    have hmove : Moves cfg v (v.advance d mv) := .single ⟨.run d ch, hc, hone⟩
    refine ⟨v.advance d mv, hmove, ⟨hr.trans hmove,
      ⟨(Pool.advance_size_of_childless hmv.1).trans hdes.size, fun u hu =>
        (Pool.advance_thread_of_ne hu (.inl hmv.1)).trans (hdes.thread u hu), ?_⟩, hw'⟩, ?_⟩
    · rw [Pool.advance_mem, hmv.2, hdes.mem]
    · rw [Pool.advance_mem, Pool.advance_pc_self hsize]
      exact hlt
  obtain ⟨s', -, ⟨hr, hdes, -⟩, hG⟩ := Reach.descend (fun v => (v.pc d).rank v.mem) hstep
    (s := s) ⟨.refl, ⟨rfl, fun _ _ => rfl, rfl⟩, hd⟩
  exact ⟨s', hr, hdes, hG⟩

/-! ## Running alone -/

/-- The thread an instruction spawns. -/
def Instr.spawns? {α : Type} : Instr R K E α → Option α
  | .spawn child _ => some child
  | _ => none

/-- **What a step starts**: nothing, a thread of its own, or a destructor it awaits. -/
theorem child_cases {α : Type} {ins : Instr R K E α} {mv : Move (Memory R K E) α}
    (he : execute cfg t ch m ins = some mv) : mv.child = none ∧ mv.joins = false ∨
      (∃ c, mv.child = some c ∧ mv.joins = false ∧ ins.spawns? = some c) ∨
      ∃ c, mv.child = some c ∧ ins.destructor? = some c ∧ ins.afterRelease? = some mv.pc := by
  cases ins
  case dropStrong g destructor k =>
    simp only [execute] at he
    split_ifs at he
    · cases he
      exact .inr (.inr ⟨_, rfl, rfl, rfl⟩)
    · cases he
      exact .inl ⟨rfl, rfl⟩
  case spawn child k =>
    cases he
    exact .inr (.inl ⟨_, rfl, rfl, rfl⟩)
  all_goals
    left
    simp only [execute, goOn] at he
    repeat' first
      | cases he; done
      | cases he; exact ⟨rfl, rfl⟩
      | split at he
      | obtain ⟨_, _, he⟩ := Option.bind_eq_some_iff.mp he

/-- A destructor that has ended, or a supervising future that has not been polled. -/
def Pc.bystands : Pc R K E → Bool
  | .drop _ .finished | .supervise _ _ _ _ .unpolled => true
  | _ => false

omit [DecidableEq R] [DecidableEq K] in
theorem bystands_of_code : ∀ c, p.code.spawns? = some c → c.bystands = true := by
  cases p using Pc.points
  all_goals intro c h; first
    | exact absurd (h : none = some c) nofun
    | exact Option.some.inj h ▸ rfl

omit [DecidableEq R] [DecidableEq K] in
/-- The rank of a thread does not depend on what a destructor does that it awaits. -/
theorem rank_of_release {control : GenId → Phase} {cancels receivers : GenId → ℕ} :
    ∀ p', p.code.afterRelease? = some p' →
      p'.rank { m with control := control, cancels := cancels, receivers := receivers } =
        p'.rank m := by
  cases p using Pc.points
  all_goals intro p' h; first
    | exact absurd (h : none = some p') nofun
    | exact Option.some.inj h ▸ rfl

/-- From `s` to `s'` thread `t` has run, and the destructors and the supervising futures it has
started. -/
structure Runs (cfg : Config R K) (t : Tid) (s s' : State R K E) : Prop where
  moves : Moves cfg s s'
  aside : ∀ u, u ≠ t → s'.pc u = s.pc u ∨ (s'.pc u).bystands = true

theorem Runs.refl (t : Tid) (s : State R K E) : Runs cfg t s s := ⟨.refl, fun _ _ => .inl rfl⟩

theorem Runs.trans {v : State R K E} (h : Runs cfg t s v) (h' : Runs cfg t v s') :
    Runs cfg t s s' := by
  refine ⟨h.moves.trans h'.moves, fun u hu => ?_⟩
  rcases h'.aside u hu with he | hb
  · rw [he]
    exact h.aside u hu
  · exact .inr hb

omit [DecidableEq R] [DecidableEq K] in
theorem bystands_of_destroyed (h : p.destroyed = true) : p.bystands = true := by
  unfold Pc.destroyed at h
  split at h
  · rfl
  · cases h

omit [DecidableEq R] [DecidableEq K] in
theorem Destroys.pc (h : Destroys d s s') (hu : u ≠ d) : s'.pc u = s.pc u :=
  congrArg Thread.pc (h.thread u hu)

theorem Destroys.runs (h : Destroys d s s') (hr : Moves cfg s s')
    (hd : (s'.pc d).destroyed = true) : Runs cfg t s s' := by
  refine ⟨hr, fun u _ => ?_⟩
  by_cases hu : u = d
  · exact .inr (hu ▸ bystands_of_destroyed hd)
  · exact .inl (h.pc hu)

section

variable (hs : Reach (step cfg) (fun _ a => a.KeysSound) State.new s)

include hs

/-- A thread that awaits a destructor can be made ready. -/
theorem runs_to_ready (ht : t < s.size) : ∃ s', Runs cfg t s s' ∧ s'.Ready t := by
  cases haw : (s.thread t).awaits with
  | none => exact ⟨s, .refl t s, ht, fun c hc => nomatch haw.symm.trans hc⟩
  | some c =>
    obtain ⟨⟨g, hg⟩, -, hd⟩ := destructor_of_awaited hs t c haw
    have hne : t ≠ c := by
      rintro rfl
      exact hd g hg
    obtain ⟨s', hr, hdes, hdone⟩ := destroy hs hg
    refine ⟨s', hdes.runs hr hdone, hdes.size ▸ ht, fun c' hc' => ?_⟩
    rw [hdes.thread t hne, haw] at hc'
    exact Option.some.inj hc' ▸ hdone

/-- **One step**, and the destructor it starts. -/
theorem runs_step {mv : Move (Memory R K E) (Pc R K E)} (hr : s.Ready t) (hc : ch.calm = true)
    (he : execute cfg t ch s.mem (s.pc t).code = some mv) :
    ∃ s', Runs cfg t s s' ∧ s'.Ready t ∧ s'.pc t = mv.pc ∧
      (s'.pc t).rank s'.mem < (s.pc t).rank s.mem := by
  have hone := step_of_ready hr he
  have hmove : Moves cfg s (s.advance t mv) := .single ⟨.run t ch, hc, hone⟩
  have hlt := rank_lt he (Choice.ne_of_calm hc).1
  have hpc := Pool.advance_pc_self hr.1 mv
  have hawaits := Pool.advance_awaits hr.1 mv
  have hsize : t < (s.advance t mv).size := hr.1.trans_le (Pool.le_advance_size s t mv)
  rcases child_cases he with ⟨hnone, hj⟩ | ⟨c, hchild, hj, hspawn⟩ | ⟨c, hchild, hdes, hrel⟩
  · refine ⟨_, ⟨hmove, fun u hu => .inl (congrArg Thread.pc
      (Pool.advance_thread_of_ne hu (.inl hnone)))⟩, ⟨hsize, fun c hc => ?_⟩, hpc, ?_⟩
    · rw [hawaits, hj] at hc
      cases hc
    · rw [hpc, Pool.advance_mem]
      exact hlt
  · refine ⟨_, ⟨hmove, fun u hu => ?_⟩, ⟨hsize, fun c hc => ?_⟩, hpc, ?_⟩
    · by_cases hnew : u = s.size
      · right
        rw [hnew, Pool.advance_pc_child hchild]
        exact bystands_of_code c hspawn
      · exact .inl (congrArg Thread.pc (Pool.advance_thread_of_ne hu (.inr hnew)))
    · rw [hawaits, hj] at hc
      cases hc
    · rw [hpc, Pool.advance_mem]
      exact hlt
  · -- the destructor runs to its end before the thread goes on
    obtain ⟨⟨g, rfl⟩, -, -⟩ := destructor_of_code c hdes
    have hne : t ≠ s.size := Nat.ne_of_lt hr.1
    have hchild' := Pool.advance_pc_child (s := s) (t := t) hchild
    obtain ⟨s', hrun, hdestroys, hdone⟩ := destroy (d := s.size) (g := g)
      (keysSound_of_moves hs hmove) (by rw [hchild']; rfl)
    have hpc' : s'.pc t = mv.pc := (hdestroys.pc hne).trans hpc
    refine ⟨s', ⟨hmove.trans hrun, fun u hu => ?_⟩, ⟨hdestroys.size ▸ hsize, fun c hc => ?_⟩,
      hpc', ?_⟩
    · by_cases hnew : u = s.size
      · exact .inr (hnew ▸ bystands_of_destroyed hdone)
      · rw [hdestroys.pc hnew]
        exact .inl (congrArg Thread.pc (Pool.advance_thread_of_ne hu (.inr hnew)))
    · rw [hdestroys.thread t hne, hawaits] at hc
      split_ifs at hc
      exact Option.some.inj hc ▸ hdone
    · rw [hpc', hdestroys.mem, Pool.advance_mem, rank_of_release _ hrel]
      exact hlt

/-- **Running alone.** A thread that awaits nothing and is not blocked short of the goal can run to
it. -/
theorem run_until {G : Memory R K E → Pc R K E → Prop} (ht : t < s.size)
    (hgo : ∀ v, Runs cfg t s v → ¬ G v.mem (v.pc t) →
      ¬ (v.pc t).code.Awaits v.mem ∧ ¬ (v.pc t).code.Blocked cfg v.mem) :
    ∃ s', Runs cfg t s s' ∧ G s'.mem (s'.pc t) := by
  obtain ⟨w, hw, hready⟩ := runs_to_ready hs ht
  have hstep (v : State R K E) (hI : Runs cfg t s v ∧ v.Ready t) (hG : ¬ G v.mem (v.pc t)) :
      ∃ v', Moves cfg v v' ∧ (Runs cfg t s v' ∧ v'.Ready t) ∧
        (v'.pc t).rank v'.mem < (v.pc t).rank v.mem := by
    obtain ⟨hrun, hr⟩ := hI
    obtain ⟨hawaits, hblocked⟩ := hgo v hrun hG
    obtain ⟨ch, mv, hc, he⟩ := exists_execute (t := t) hawaits hblocked
    obtain ⟨v', hrun', hr', -, hlt⟩ := runs_step (keysSound_of_moves hs hrun.moves) hr hc he
    exact ⟨v', hrun'.moves, ⟨hrun.trans hrun', hr'⟩, hlt⟩
  obtain ⟨s', -, ⟨hrun, -⟩, hG⟩ := Reach.descend (fun v : State R K E => (v.pc t).rank v.mem)
    hstep ⟨hw, hready⟩
  exact ⟨s', hrun, hG⟩

/-- What counts for nothing at a point where a bystander stands only changes with the thread that
runs. -/
theorem total_of_runs {f : Pc R K E → ℕ} (h : Runs cfg t s s') (hidle : f .idle = 0)
    (hby : ∀ p, p.bystands = true → f p = 0) (ht : t < s.size) :
    s'.total f + f (s.pc t) ≤ s.total f + f (s'.pc t) := by
  refine Pool.total_add_le (size_of_reach h.moves) ht (fun u hu _ => ?_) fun u hu => ?_
  · rcases h.aside u hu with he | hb
    · exact he ▸ Nat.le_refl _
    · exact hby _ hb ▸ Nat.zero_le _
  · rcases h.aside u (Nat.ne_of_gt (ht.trans_le hu)) with he | hb
    · rw [he, fresh_of_reach hs u hu, hidle]
    · exact hby _ hb

end

end Resourcery
