import Mathlib.Logic.Relation
import Mathlib.Data.List.Basic

/-!
# Runs of a labelled step function

A system is a partial step function `step : σ → α → Option σ`. `ok s a` says which actions the
environment may take in which states; a run takes only those. `Reach` is reachability by such a
run, `Trace` also keeps the states the run went through, so that a statement can speak of an
instant of the run (`Trace.during`).
-/

namespace Transition

variable {σ α : Type*} {step : σ → α → Option σ} {ok ok' : σ → α → Prop}

/-! ## Reachability -/

/-- One allowed step. -/
def Succ (step : σ → α → Option σ) (ok : σ → α → Prop) (s s' : σ) : Prop :=
  ∃ a, ok s a ∧ step s a = some s'

/-- `s'` is reached from `s` by finitely many allowed steps. -/
abbrev Reach (step : σ → α → Option σ) (ok : σ → α → Prop) : σ → σ → Prop :=
  Relation.ReflTransGen (Succ step ok)

/-- A run under a stronger condition is a run under a weaker one. -/
theorem Reach.mono (h : ∀ s a, ok s a → ok' s a) {s s' : σ} (hr : Reach step ok s s') :
    Reach step ok' s s' := by
  induction hr with
  | refl => exact .refl
  | tail _ hs ih =>
    obtain ⟨a, ha, hs⟩ := hs
    exact ih.tail ⟨a, h _ a ha, hs⟩

/-- **Invariants.** What holds at the start and is kept by every allowed step holds throughout. -/
theorem Reach.invariant {s s' : σ} (hr : Reach step ok s s') (P : σ → Prop) (h0 : P s)
    (hstep : ∀ u a u', P u → ok u a → step u a = some u' → P u') : P s' := by
  induction hr with
  | refl => exact h0
  | tail _ h ih =>
    obtain ⟨a, ha, hs⟩ := h
    exact hstep _ a _ ih ha hs

/-- An invariant whose step needs the states to be reachable. -/
theorem Reach.invariant_of_reach {s s' : σ} (hr : Reach step ok s s') (P : σ → Prop) (h0 : P s)
    (hstep : ∀ u a u', Reach step ok s u → P u → ok u a → step u a = some u' → P u') : P s' := by
  induction hr with
  | refl => exact h0
  | tail hu h ih =>
    obtain ⟨a, ha, hs⟩ := h
    exact hstep _ a _ hu ih ha hs

/-- A reflexive and transitive relation that holds across every allowed step holds across every
run. -/
theorem Reach.rel {s s' : σ} (hr : Reach step ok s s') (G : σ → σ → Prop) (hrefl : ∀ u, G u u)
    (htrans : ∀ u v w, G u v → G v w → G u w)
    (hstep : ∀ u a u', ok u a → step u a = some u' → G u u') : G s s' := by
  induction hr with
  | refl => exact hrefl s
  | tail _ h ih =>
    obtain ⟨a, ha, hs⟩ := h
    exact htrans _ _ _ ih (hstep _ a _ ha hs)

/-- **Simulation.** When every allowed step is matched by steps of `R`, so is every run. -/
theorem Reach.simulate {τ : Type*} {R : τ → τ → Prop} {s s' : σ} (hr : Reach step ok s s')
    (abs : σ → τ → Prop) {x : τ} (h0 : abs s x)
    (hstep : ∀ u a u' x, Reach step ok s u → abs u x → ok u a → step u a = some u' →
      ∃ x', Relation.ReflTransGen R x x' ∧ abs u' x') :
    ∃ x', Relation.ReflTransGen R x x' ∧ abs s' x' := by
  induction hr with
  | refl => exact ⟨x, .refl, h0⟩
  | tail hu h ih =>
    obtain ⟨y, hy, hp⟩ := ih
    obtain ⟨a, ha, hs⟩ := h
    obtain ⟨x', hx, hp⟩ := hstep _ a _ y hu hp ha hs
    exact ⟨x', hy.trans hx, hp⟩

/-- **Descent.** When some run from every state short of the goal brings a measure down, the goal is
reached from every state. -/
theorem Reach.descend {I G : σ → Prop} (μ : σ → ℕ)
    (hstep : ∀ s, I s → ¬ G s → ∃ s', Reach step ok s s' ∧ I s' ∧ μ s' < μ s) {s : σ} (hs : I s) :
    ∃ s', Reach step ok s s' ∧ I s' ∧ G s' := by
  induction hn : μ s using Nat.strongRecOn generalizing s with
  | _ n ih =>
    by_cases hG : G s
    · exact ⟨s, .refl, hs, hG⟩
    · obtain ⟨s', hr, hs', hlt⟩ := hstep s hs hG
      obtain ⟨s'', hr', hs'', hG⟩ := ih (μ s') (hn ▸ hlt) hs' rfl
      exact ⟨s'', hr.trans hr', hs'', hG⟩

/-! ## Traces -/

/-- `Trace step ok s vs s'`: a run from `s` to `s'` that goes through the states `vs`, the last
one first. Both ends are among them. -/
inductive Trace (step : σ → α → Option σ) (ok : σ → α → Prop) (s : σ) : List σ → σ → Prop
  | start : Trace step ok s [s] s
  | next {vs : List σ} {u u' : σ} {a : α} (run : Trace step ok s vs u) (allowed : ok u a)
      (taken : step u a = some u') : Trace step ok s (u' :: vs) u'

theorem Trace.reach {s s' : σ} {vs : List σ} (h : Trace step ok s vs s') :
    Reach step ok s s' := by
  induction h with
  | start => exact .refl
  | next _ ha hs ih => exact .tail ih ⟨_, ha, hs⟩

theorem Trace.last_mem {s s' : σ} {vs : List σ} (h : Trace step ok s vs s') : s' ∈ vs := by
  cases h <;> exact List.mem_cons_self

/-- A visited state is reached from the start and reaches the end. -/
theorem Trace.reach_of_mem {s s' u : σ} {vs : List σ} (h : Trace step ok s vs s') (hu : u ∈ vs) :
    Reach step ok s u ∧ Reach step ok u s' := by
  induction h with
  | start =>
    obtain rfl := List.mem_singleton.mp hu
    exact ⟨.refl, .refl⟩
  | next run ha hs ih =>
    rcases List.mem_cons.mp hu with rfl | hu
    · exact ⟨run.reach.tail ⟨_, ha, hs⟩, .refl⟩
    · exact ⟨(ih hu).1, (ih hu).2.tail ⟨_, ha, hs⟩⟩

/-- Of two visited states one is reached from the other. -/
theorem Trace.reach_or_reach {s s' u v : σ} {vs : List σ} (h : Trace step ok s vs s')
    (hu : u ∈ vs) (hv : v ∈ vs) : Reach step ok u v ∨ Reach step ok v u := by
  induction h with
  | start =>
    obtain rfl := List.mem_singleton.mp hu
    obtain rfl := List.mem_singleton.mp hv
    exact .inl .refl
  | next run ha hs ih =>
    have hlast := run.next ha hs
    rcases List.mem_cons.mp hu with rfl | hu'
    · exact .inr (hlast.reach_of_mem hv).2
    · rcases List.mem_cons.mp hv with rfl | hv'
      · exact .inl (hlast.reach_of_mem hu).2
      · exact ih hu' hv'

/-- **Invariants of traces.** A fact about the visited states and the current one that holds at
the start and is kept by every allowed step holds throughout. -/
theorem Trace.invariant {s s' : σ} {vs : List σ} (h : Trace step ok s vs s')
    (J : List σ → σ → Prop) (h0 : J [s] s)
    (hstep : ∀ vs u a u', Reach step ok s u → J vs u → ok u a → step u a = some u' →
      J (u' :: vs) u') : J vs s' := by
  induction h with
  | start => exact h0
  | next run ha hs ih => exact hstep _ _ _ _ run.reach ih ha hs

/-- At some visited state where `live` holds, `P` holds: `P` at some instant of the part of the
run in which `live`. -/
def During (vs : List σ) (live P : σ → Prop) : Prop :=
  ∃ u ∈ vs, live u ∧ P u

theorem During.cons {vs : List σ} {live P : σ → Prop} (h : During vs live P) (u : σ) :
    During (u :: vs) live P := by
  obtain ⟨v, hv, h⟩ := h
  exact ⟨v, List.mem_cons_of_mem u hv, h⟩

theorem During.here {vs : List σ} {live P : σ → Prop} {u : σ} (hl : live u) (hp : P u) :
    During (u :: vs) live P :=
  ⟨u, List.mem_cons_self, hl, hp⟩

/-! ## Histories -/

/-- `History step ok s es s'`: a run from `s` to `s'` with its events `es`, the last one first. An
event is an action with the state in which it was taken. -/
inductive History (step : σ → α → Option σ) (ok : σ → α → Prop) (s : σ) :
    List (σ × α) → σ → Prop
  | start : History step ok s [] s
  | next {es : List (σ × α)} {u u' : σ} {a : α} (run : History step ok s es u) (allowed : ok u a)
      (taken : step u a = some u') : History step ok s ((u, a) :: es) u'

theorem History.reach {s s' : σ} {es : List (σ × α)} (h : History step ok s es s') :
    Reach step ok s s' := by
  induction h with
  | start => exact .refl
  | next _ ha hs ih => exact .tail ih ⟨_, ha, hs⟩

/-- An event was allowed, its state is reached from the start, and the end from the state after
it. -/
theorem History.event {s s' : σ} {es : List (σ × α)} (h : History step ok s es s') {e : σ × α}
    (he : e ∈ es) : Reach step ok s e.1 ∧ ok e.1 e.2 ∧
      ∃ u, step e.1 e.2 = some u ∧ Reach step ok u s' := by
  induction h with
  | start => cases he
  | next run ha hs ih =>
    rcases List.mem_cons.mp he with rfl | he
    · exact ⟨run.reach, ha, _, hs, .refl⟩
    · obtain ⟨h1, h2, u, h3, h4⟩ := ih he
      exact ⟨h1, h2, u, h3, h4.tail ⟨_, ha, hs⟩⟩

/-- **Invariants of histories.** -/
theorem History.invariant {s s' : σ} {es : List (σ × α)} (h : History step ok s es s')
    (J : List (σ × α) → σ → Prop) (h0 : J [] s)
    (hstep : ∀ es u a u', Reach step ok s u → J es u → ok u a → step u a = some u' →
      J ((u, a) :: es) u') : J es s' := by
  induction h with
  | start => exact h0
  | next run ha hs ih => exact hstep _ _ _ _ run.reach ih ha hs

/-- The states a history went through, the last one first. -/
def instants (es : List (σ × α)) (s : σ) : List σ := s :: es.map Prod.fst

/-- A history tells the states of the run. -/
theorem History.trace {s s' : σ} {es : List (σ × α)} (h : History step ok s es s') :
    Trace step ok s (instants es s') s' := by
  induction h with
  | start => exact .start
  | next _ ha hs ih => exact ih.next ha hs

/-- The states of a run have a history. -/
theorem Trace.history {s s' : σ} {vs : List σ} (h : Trace step ok s vs s') :
    ∃ es : List (σ × α), History step ok s es s' ∧ instants es s' = vs := by
  induction h with
  | start => exact ⟨[], .start, rfl⟩
  | @next _ u u' a _ ha hs ih =>
    obtain ⟨es, he, rfl⟩ := ih
    exact ⟨(u, a) :: es, he.next ha hs, rfl⟩

/-- One of the events satisfies `P`. -/
def Happened (P : σ × α → Prop) (es : List (σ × α)) : Prop := ∃ e ∈ es, P e

instance (P : σ × α → Prop) [DecidablePred P] (es : List (σ × α)) : Decidable (Happened P es) :=
  inferInstanceAs (Decidable (∃ e ∈ es, P e))

theorem not_happened_nil (P : σ × α → Prop) : ¬ Happened P [] := fun ⟨_, he, _⟩ => nomatch he

@[simp] theorem happened_cons {P : σ × α → Prop} {e : σ × α} {es : List (σ × α)} :
    Happened P (e :: es) ↔ P e ∨ Happened P es := by
  simp [Happened]

/-! ## Executing a list of actions -/

/-- The state after the actions `as`, when all of them can be taken. -/
def exec (step : σ → α → Option σ) : σ → List α → Option σ
  | s, [] => some s
  | s, a :: as => (step s a).bind fun s' => exec step s' as

/-- Whether `ok` allows each of the actions when they are taken in turn. -/
def Allowed (step : σ → α → Option σ) (ok : σ → α → Prop) : σ → List α → Prop
  | _, [] => True
  | s, a :: as => ok s a ∧ ∀ s', step s a = some s' → Allowed step ok s' as

instance decidableAllowed [∀ s a, Decidable (ok s a)] : (s : σ) → (as : List α) →
    Decidable (Allowed step ok s as)
  | _, [] => .isTrue trivial
  | s, a :: as =>
    match h : step s a with
    | none => decidable_of_iff (ok s a) (by simp [Allowed, h])
    | some s' =>
      have := decidableAllowed s' as
      decidable_of_iff (ok s a ∧ Allowed step ok s' as) (by simp [Allowed, h])

theorem reach_of_exec {s s' : σ} {as : List α} (ha : Allowed step ok s as)
    (h : exec step s as = some s') : Reach step ok s s' := by
  induction as generalizing s with
  | nil =>
    cases h
    exact .refl
  | cons a as ih =>
    obtain ⟨u, hu, h⟩ := Option.bind_eq_some_iff.mp h
    exact .head ⟨a, ha.1, hu⟩ (ih (ha.2 u hu) h)

theorem allowed_of_forall {P : α → Prop} (h : ∀ s a, P a → ok s a) {as : List α}
    (hP : ∀ a ∈ as, P a) (s : σ) : Allowed step ok s as := by
  induction as generalizing s with
  | nil => trivial
  | cons a as ih =>
    exact ⟨h s a (hP a List.mem_cons_self),
      fun s' _ => ih (fun b hb => hP b (List.mem_cons_of_mem a hb)) s'⟩

/-- The states the actions `as` go through from `s` on, before them `vs`, the last one first. -/
def visited (step : σ → α → Option σ) (vs : List σ) : σ → List α → List σ
  | _, [] => vs
  | s, a :: as =>
    match step s a with
    | none => vs
    | some s' => visited step (s' :: vs) s' as

theorem mem_visited_of_mem {s u : σ} {vs : List σ} (hu : u ∈ vs) (as : List α) :
    u ∈ visited step vs s as := by
  induction as generalizing s vs with
  | nil => exact hu
  | cons a as ih =>
    unfold visited
    split
    · exact hu
    · exact ih (List.mem_cons_of_mem _ hu)

/-- The states on the way are visited. -/
theorem mem_visited {s s' : σ} {vs : List σ} {as : List α} (hv : s ∈ vs)
    (hs : exec step s as = some s') (bs : List α) : s' ∈ visited step vs s (as ++ bs) := by
  induction as generalizing s vs with
  | nil =>
    cases hs
    exact mem_visited_of_mem hv bs
  | cons a as ih =>
    obtain ⟨u, hu, hs⟩ := Option.bind_eq_some_iff.mp hs
    have hcons : visited step vs s (a :: as ++ bs) = visited step (u :: vs) u (as ++ bs) := by
      simp only [List.cons_append, visited, hu]
    rw [hcons]
    exact ih List.mem_cons_self hs

theorem trace_of_exec {s₀ s s' : σ} {vs : List σ} {as : List α} (h : Trace step ok s₀ vs s)
    (ha : Allowed step ok s as) (hs : exec step s as = some s') :
    Trace step ok s₀ (visited step vs s as) s' := by
  induction as generalizing s vs with
  | nil =>
    cases hs
    exact h
  | cons a as ih =>
    obtain ⟨u, hu, hs⟩ := Option.bind_eq_some_iff.mp hs
    have hv : visited step vs s (a :: as) = visited step (u :: vs) u as := by
      simp only [visited, hu]
    rw [hv]
    exact ih (h.next ha.1 hu) (ha.2 u hu) hs

/-- The events of the actions `as` from `s` on, before them `es`, the last one first. -/
def events (step : σ → α → Option σ) (es : List (σ × α)) : σ → List α → List (σ × α)
  | _, [] => es
  | s, a :: as =>
    match step s a with
    | none => es
    | some s' => events step ((s, a) :: es) s' as

theorem history_of_exec {s₀ s s' : σ} {es : List (σ × α)} {as : List α}
    (h : History step ok s₀ es s) (ha : Allowed step ok s as) (hs : exec step s as = some s') :
    History step ok s₀ (events step es s as) s' := by
  induction as generalizing s es with
  | nil =>
    cases hs
    exact h
  | cons a as ih =>
    obtain ⟨u, hu, hs⟩ := Option.bind_eq_some_iff.mp hs
    have he : events step es s (a :: as) = events step ((s, a) :: es) u as := by
      simp only [events, hu]
    rw [he]
    exact ih (h.next ha.1 hu) (ha.2 u hu) hs

/-- The state a list of actions leads to is reached by a run. -/
theorem reach_exec {P : α → Prop} (h : ∀ s a, P a → ok s a) {s : σ} {as : List α}
    (hP : ∀ a ∈ as, P a) (hs : (exec step s as).isSome = true) :
    Reach step ok s ((exec step s as).get hs) :=
  reach_of_exec (allowed_of_forall h hP s) (Option.some_get hs).symm

/-- The same for a condition that looks at the states. -/
theorem reach_allowed {s : σ} {as : List α} (ha : Allowed step ok s as)
    (hs : (exec step s as).isSome = true) : Reach step ok s ((exec step s as).get hs) :=
  reach_of_exec ha (Option.some_get hs).symm

/-- The trace of a list of actions. -/
theorem trace_exec {P : α → Prop} (h : ∀ s a, P a → ok s a) {s : σ} {as : List α}
    (hP : ∀ a ∈ as, P a) (hs : (exec step s as).isSome = true) :
    Trace step ok s (visited step [s] s as) ((exec step s as).get hs) :=
  trace_of_exec .start (allowed_of_forall h hP s) (Option.some_get hs).symm

/-- The history of a list of actions. -/
theorem history_exec {P : α → Prop} (h : ∀ s a, P a → ok s a) {s : σ} {as : List α}
    (hP : ∀ a ∈ as, P a) (hs : (exec step s as).isSome = true) :
    History step ok s (events step [] s as) ((exec step s as).get hs) :=
  history_of_exec .start (allowed_of_forall h hP s) (Option.some_get hs).symm

end Transition
