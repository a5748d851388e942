import Resourcery.Logic.Points

/-!
# Who is in charge of a generation

Each generation has at most one thread that is in charge of it, first the call of `create` and
then the supervising future, and at most one that holds the sender of its start gate. Both are
counted over all threads: the count is at most one and a step only hands it on.
-/

namespace Resourcery

open Interleaving Function Transition ResourceContext

variable {R K E : Type}

/-! ## Handing on -/

/-- From `p` a thread goes on at `p'` and starts `c`: what counts for `g` is handed on, or `g` is
the generation that has just been created. -/
def Handed (f : GenId → Pc R K E → ℕ) (m : Memory R K E) (p : Pc R K E) (m' : Memory R K E)
    (p' : Pc R K E) (c : Option (Pc R K E)) : Prop :=
  m.nextGen ≤ m'.nextGen ∧ ∀ g, f g p' + (c.map (f g)).getD 0 ≤ f g p ∨
    m.nextGen = g ∧ g < m'.nextGen ∧ f g p' + (c.map (f g)).getD 0 ≤ 1

/-- At most one thread counts for a generation, and none for one that does not exist. -/
def Exclusive (f : GenId → Pc R K E → ℕ) (s : State R K E) : Prop :=
  ∀ g, s.total (f g) ≤ 1 ∧ (s.mem.nextGen ≤ g → s.total (f g) = 0)

section

variable {f : GenId → Pc R K E → ℕ} {s s' : State R K E} {a : Action R K E} {t u : Tid}
  {g : GenId}

/-- Two threads that count for one generation are the same. -/
theorem Exclusive.eq (h : Exclusive f s) (ht : t < s.size) (hu : u < s.size)
    (hft : 0 < f g (s.pc t)) (hfu : 0 < f g (s.pc u)) : t = u := by
  by_contra hne
  have hle := Pool.add_le_total (f g) ht hu hne
  have := (h g).1
  omega

theorem Exclusive.lt_nextGen (h : Exclusive f s) (ht : t < s.size) (hft : 0 < f g (s.pc t)) :
    g < s.mem.nextGen := by
  by_contra hn
  have := Pool.le_total (f g) ht
  have := (h g).2 (Nat.le_of_not_lt hn)
  omega

variable [DecidableEq R] [DecidableEq K] {cfg : Config R K}

/-- **Rule.** What every step hands on stays exclusive. -/
theorem Exclusive.step
    (hrun : ∀ t (m : Memory R K E) (p : Pc R K E),
      p.code.wp cfg t m fun m' p' c => Handed f m p m' p' c)
    (hjump : ∀ (a : Action R K E) t p p', Jump a t p p' → ∀ g, f g p' ≤ f g p)
    (hcall : ∀ c (m m' : Memory R K E) p, CallCases cfg m c m' p → ∀ g, f g p = 0)
    (hdestructor : ∀ x g, f g (.destructor x) = 0)
    (h : step cfg s a = some s') (hs : Exclusive f s) : Exclusive f s' := by
  intro g
  have hg := hs g
  refine total_step (f g) (fun m n => n ≤ 1 ∧ (m.nextGen ≤ g → n = 0)) h ?_ ?_ ?_ ?_ ?_
  · rintro t p k - rfl hr hk
    refine (hrun t s.mem (s.pc t)).mono fun m p' c ⟨hn, hh⟩ => ?_
    rcases hh g with hle | ⟨hnew, hlt, hle⟩
    · refine ⟨by omega, fun hm => ?_⟩
      have := hg.2 (hn.trans hm)
      omega
    · have := hg.2 (Nat.le_of_eq hnew)
      exact ⟨by omega, fun hm => absurd hlt (Nat.not_lt.mpr hm)⟩
  · rintro t p p' k hj rfl hk
    have := hjump a t _ p' hj g
    refine ⟨by omega, fun hm => ?_⟩
    have := hg.2 hm
    omega
  · rintro c m p - hc
    have h0 := hcall c _ _ _ hc g
    have hn : m.nextGen = s.mem.nextGen := by cases hc <;> rfl
    rw [h0, hn]
    exact hg
  · exact fun _ _ _ => hg
  · rintro m c hh
    have h0 : (c.map (f g)).getD 0 = 0 := by
      cases hh
      case releaseLast => exact hdestructor _ _
      all_goals rfl
    have hn : m.nextGen = s.mem.nextGen := by cases hh <;> rfl
    rw [h0, hn]
    exact hg

end

/-! ## The thread in charge -/

/-- The generation a call of `create` has made. -/
def ResourceContext.CreatePc.gen? : CreatePc → Option GenId
  | .accepting | .build | .newEntry => none
  | .spawnTask g | .register g _ | .insertLive g _ | .spawnSupervisor g _ | .abort g | .cancel g _
  | .dropStart g | .dropEntry g | .dropSender g => some g

/-- Whether `o` is `g`, as a number. -/
def isGen (g : GenId) (o : Option GenId) : ℕ := if o = some g then 1 else 0

/-- The thread is in charge of `g`. -/
def Pc.charge (g : GenId) : Pc R K E → ℕ
  | .acquire _ (.create _ p) => isGen g p.gen?
  | .supervise _ x _ _ _ => isGen g (some x)
  | _ => 0

/-- The generation whose `start_tx` an acquisition holds. -/
def ResourceContext.AcquirePc.gate? : AcquirePc → Option GenId
  | .create _ (.dropEntry _) | .create _ (.dropSender _) => none
  | .create _ p => p.gen?
  | .settle _ _ _ .dropResource => none
  | .settle _ _ g _ | .start g => some g
  | _ => none

/-- The thread holds the sender of the start gate of `g`. -/
def Pc.gate (g : GenId) : Pc R K E → ℕ
  | .acquire _ p => isGen g p.gate?
  | _ => 0

theorem isGen_self (g : GenId) : isGen g (some g) = 1 := if_pos rfl

theorem isGen_pos (g : GenId) : 0 < isGen g (some g) := by
  rw [isGen_self]
  exact Nat.one_pos

theorem isGen_le_one (g : GenId) (o : Option GenId) : isGen g o ≤ 1 := by
  unfold isGen
  split <;> omega

theorem eq_of_isGen {g x : GenId} (h : 0 < isGen g (some x)) : x = g := by
  unfold isGen at h
  split at h
  · injection ‹some x = some g›
  · omega

variable [DecidableEq R] [DecidableEq K] {cfg : Config R K} {t : Tid} {m : Memory R K E}
  {p : Pc R K E}

omit [DecidableEq R] [DecidableEq K] in
theorem handed_new (f : GenId → Pc R K E → ℕ) {m m' : Memory R K E} {p p' : Pc R K E}
    (hf : ∀ g, f g p' = isGen g (some m.nextGen)) (hn : m'.nextGen = m.nextGen + 1) :
    Handed f m p m' p' none := by
  refine ⟨hn ▸ Nat.le_succ _, fun g => ?_⟩
  by_cases hg : m.nextGen = g
  · refine .inr ⟨hg, by rw [← hg, hn]; exact Nat.lt_succ_self _, ?_⟩
    rw [hf]
    exact isGen_le_one _ _
  · refine .inl ?_
    rw [hf, show isGen g (some m.nextGen) = 0 from if_neg fun h => hg (Option.some.inj h)]
    exact Nat.zero_le _

theorem wp_charge : p.code.wp cfg t m fun m' p' c => Handed Pc.charge m p m' p' c := by
  cases p using Pc.points
  case acquire_create_newEntry => exact handed_new _ (fun _ => rfl) rfl
  case acquire_guard_remove_entry | supervise_cleanup_entry =>
    refine ⟨⟨Nat.le_refl _, fun _ => .inl (Nat.le_refl _)⟩, fun _ => ⟨fun _ _ => ?_, fun _ => ?_⟩⟩
    · dsimp only
      split <;> exact ⟨Nat.le_refl _, fun _ => .inl (Nat.le_refl _)⟩
    · exact ⟨Nat.le_refl _, fun _ => .inl (Nat.le_refl _)⟩
  all_goals
    repeat' first
      | exact trivial
      | exact ⟨Nat.le_refl _, fun _ => .inl (Nat.le_refl _)⟩
      | exact ⟨Nat.le_refl _, fun _ => .inl (Nat.zero_le _)⟩
      | exact ⟨Nat.le_refl _, fun _ => .inl (Nat.le_of_eq (Nat.zero_add _))⟩
      | apply And.intro
      | intro _

theorem wp_gate : p.code.wp cfg t m fun m' p' c => Handed Pc.gate m p m' p' c := by
  cases p using Pc.points
  case acquire_create_newEntry => exact handed_new _ (fun _ => rfl) rfl
  case acquire_guard_remove_entry | supervise_cleanup_entry =>
    refine ⟨⟨Nat.le_refl _, fun _ => .inl (Nat.le_refl _)⟩, fun _ => ⟨fun _ _ => ?_, fun _ => ?_⟩⟩
    · dsimp only
      split <;> exact ⟨Nat.le_refl _, fun _ => .inl (Nat.le_refl _)⟩
    · exact ⟨Nat.le_refl _, fun _ => .inl (Nat.le_refl _)⟩
  all_goals
    repeat' first
      | exact trivial
      | exact ⟨Nat.le_refl _, fun _ => .inl (Nat.le_refl _)⟩
      | exact ⟨Nat.le_refl _, fun _ => .inl (Nat.zero_le _)⟩
      | apply And.intro
      | intro _

/-- **One thread is in charge.** -/
theorem charge_of_reach {ok : State R K E → Action R K E → Prop} {s : State R K E}
    (hr : Reach (step cfg) ok State.new s) : Exclusive Pc.charge s := by
  refine hr.invariant (Exclusive Pc.charge) (fun _ => ⟨Nat.zero_le _, fun _ => rfl⟩) ?_
  refine fun s a s' hs _ h => Exclusive.step (fun _ _ _ => wp_charge) ?_ ?_ (fun _ _ => rfl) h hs
  · rintro a t p p' hj g
    cases hj <;> exact Nat.le_refl _
  · rintro c m m' p hc g
    cases hc <;> rfl

/-- **One thread holds the sender of the start gate.** -/
theorem gate_of_reach {ok : State R K E → Action R K E → Prop} {s : State R K E}
    (hr : Reach (step cfg) ok State.new s) : Exclusive Pc.gate s := by
  refine hr.invariant (Exclusive Pc.gate) (fun _ => ⟨Nat.zero_le _, fun _ => rfl⟩) ?_
  refine fun s a s' hs _ h => Exclusive.step (fun _ _ _ => wp_gate) ?_ ?_ (fun _ _ => rfl) h hs
  · rintro a t p p' hj g
    cases hj <;> exact Nat.le_refl _
  · rintro c m m' p hc g
    cases hc <;> rfl

end Resourcery
