import Resourcery.Proof.Known

/-!
# Destructors

The destructor of an entry runs once, when its count has reached zero: there is a thread for it
exactly if the count is zero.
-/

namespace Resourcery

open Interleaving Function Transition ResourceContext

variable {R K E : Type}

/-- The thread runs the destructor of the entry of `g`. -/
def Pc.destroys (g : GenId) : Pc R K E → ℕ
  | .drop x _ => isGen g (some x)
  | _ => 0

/-- Between `m` and `m'` the number of destructors of `g` goes from `d` to `d'`: it grows when the
count reaches zero. -/
def Destroyed (g : GenId) (m : Memory R K E) (d : ℕ) (m' : Memory R K E) (d' : ℕ) : Prop :=
  m'.strong g = m.strong g ∧ m'.nextGen = m.nextGen ∧ d' = d ∨
    0 < m.strong g ∧ 0 < m'.strong g ∧ m'.nextGen = m.nextGen ∧ d' = d ∨
    m.strong g = 1 ∧ m'.strong g = 0 ∧ m'.nextGen = m.nextGen ∧ d' = d + 1 ∨
    m'.nextGen = m.nextGen + 1 ∧ d' = d ∧
      (g = m.nextGen → 0 < m'.strong g) ∧ (g ≠ m.nextGen → m'.strong g = m.strong g)

variable {cfg : Config R K} {t : Tid} {m : Memory R K E} {p : Pc R K E} {g x : GenId}

theorem Destroyed.refl (m : Memory R K E) (d : ℕ) : Destroyed g m d m d := .inl ⟨rfl, rfl, rfl⟩

theorem Destroyed.upgrade (hx : 0 < m.strong x) (d : ℕ) :
    Destroyed g m d { m with strong := update m.strong x (m.strong x + 1) } d := by
  by_cases hgx : g = x
  · subst hgx
    refine .inr (.inl ⟨hx, ?_, rfl, rfl⟩)
    show 0 < update m.strong g _ g
    rw [update_self]
    exact Nat.succ_pos _
  · exact .inl ⟨update_of_ne hgx _ _, rfl, rfl⟩

theorem Destroyed.drop (h0 : 0 < m.strong x) (h1 : m.strong x ≠ 1) (d : ℕ) :
    Destroyed g m d { m with strong := update m.strong x (m.strong x - 1) } d := by
  by_cases hgx : g = x
  · subst hgx
    refine .inr (.inl ⟨h0, ?_, rfl, rfl⟩)
    show 0 < update m.strong g _ g
    rw [update_self]
    omega
  · exact .inl ⟨update_of_ne hgx _ _, rfl, rfl⟩

theorem Destroyed.dropLast (hx : m.strong x = 1) :
    Destroyed g m 0 { m with strong := update m.strong x 0 } (0 + isGen g (some x)) := by
  by_cases hgx : g = x
  · subst hgx
    refine .inr (.inr (.inl ⟨hx, update_self _ _ _, rfl, ?_⟩))
    rw [isGen_self]
  · refine .inl ⟨update_of_ne hgx _ _, rfl, ?_⟩
    exact congrArg (0 + ·) (if_neg fun h => hgx (Option.some.inj h).symm)

variable [DecidableEq R] [DecidableEq K]

theorem wp_destroyed (g : GenId) (hheld : ∀ x, p.held x ≤ m.strong x) :
    p.code.wp cfg t m fun m' p' c =>
      Destroyed g m (p.destroys g) m' (p'.destroys g + (c.map (Pc.destroys g)).getD 0) := by
  have pos {x : GenId} {k : ℕ} (hx : k + one x x ≤ m.strong x) : 0 < m.strong x := by
    rw [one_self] at hx; omega
  have pos' {x : GenId} (hx : one x x ≤ m.strong x) : 0 < m.strong x := by
    rw [one_self] at hx; omega
  cases p using Pc.points
  case acquire_claim_upgrade | discover_upgrade | upgrade_entry | all_filter_cons =>
    exact ⟨fun h => .upgrade h _, fun _ => .refl _ _⟩
  case acquire_claim_dropFound_spawn | acquire_claim_dropFound_getOrSpawn
      | acquire_claim_dropFound_tryGetOrSpawn | acquire_claim_dropResource
      | acquire_create_dropEntry | acquire_settle_dropResource | discover_dropEntry
      | upgrade_dropEntry =>
    exact ⟨fun h => .dropLast h, fun h => .drop (pos' (hheld _)) h _⟩
  case all_dropEntry =>
    exact ⟨fun h => .dropLast h, fun h => .drop (pos (hheld _)) h _⟩
  case acquire_create_newEntry =>
    refine .inr (.inr (.inr ⟨rfl, rfl, fun h => ?_, fun h => update_of_ne h _ _⟩))
    show 0 < update m.strong m.nextGen 1 g
    rw [h, update_self]
    exact Nat.one_pos
  case acquire_guard_remove_entry | supervise_cleanup_entry =>
    refine ⟨.refl _ _, fun _ => ⟨fun _ _ => ?_, fun _ => .inl ⟨rfl, rfl, rfl⟩⟩⟩
    dsimp only
    split <;> exact .inl ⟨rfl, rfl, rfl⟩
  all_goals
    repeat' first
      | exact trivial
      | exact .inl ⟨rfl, rfl, rfl⟩
      | apply And.intro
      | intro _

omit [DecidableEq R] [DecidableEq K] in
theorem HoldCases.destroyed {a : Action R K E} {m' : Memory R K E} {c : Option (Pc R K E)}
    (h : HoldCases m a m' c) (hpos : ∀ holder x, (holder, x) ∈ m.refs → 0 < m.strong x)
    (g : GenId) : Destroyed g m 0 m' (0 + (c.map (Pc.destroys g)).getD 0) := by
  cases h
  case clone h x hm ha => exact Destroyed.upgrade (hpos h x hm) 0
  case release h x hm h1 => exact Destroyed.drop (hpos h x hm) h1 0
  case releaseLast h x hm h1 => exact Destroyed.dropLast h1
  all_goals exact .inl ⟨rfl, rfl, rfl⟩

/-- There is one destructor of `g` if its count is zero and none otherwise. -/
def Destructed (g : GenId) (m : Memory R K E) (n : ℕ) : Prop :=
  (g < m.nextGen → m.strong g = 0 → n = 1) ∧ (0 < m.strong g ∨ m.nextGen ≤ g → n = 0)

omit [DecidableEq R] [DecidableEq K] in
theorem Destructed.step {m' : Memory R K E} {k d d' : ℕ} (h : Destructed g m (k + d))
    (hd : Destroyed g m d m' d') (hfresh : m.nextGen ≤ g → m.strong g = 0) :
    Destructed g m' (k + d') := by
  obtain ⟨h0, h1⟩ := h
  rcases hd with ⟨hs, hn, rfl⟩ | ⟨hs, hs', hn, rfl⟩ | ⟨hs, hs', hn, rfl⟩ | ⟨hn, rfl, hself, hother⟩
  · unfold Destructed
    rw [hs, hn]
    exact ⟨h0, h1⟩
  · exact ⟨fun _ hz => absurd hs' (hz ▸ Nat.lt_irrefl 0), fun _ => h1 (.inl hs)⟩
  · have hk := h1 (.inl (hs ▸ Nat.one_pos))
    have hlt : g < m'.nextGen := by
      rw [hn]
      by_contra hle
      rw [hfresh (Nat.le_of_not_lt hle)] at hs
      cases hs
    refine ⟨fun _ _ => by omega, fun hor => ?_⟩
    rcases hor with hpos | hle
    · exact absurd hpos (hs' ▸ Nat.lt_irrefl 0)
    · exact absurd hlt (Nat.not_lt.mpr hle)
  · by_cases hg : g = m.nextGen
    · have := hself hg
      exact ⟨fun _ hz => absurd this (hz ▸ Nat.lt_irrefl 0),
        fun _ => h1 (.inr (Nat.le_of_eq hg.symm))⟩
    · have hs := hother hg
      unfold Destructed
      rw [hs, hn]
      refine ⟨fun hlt hz => h0 ?_ hz, fun hor => h1 (hor.imp_right fun hle => ?_)⟩
      · exact lt_of_le_of_ne (Nat.le_of_lt_succ hlt) hg
      · exact (Nat.le_succ _).trans hle

/-- **One destructor.** There is one for each entry whose count is zero, none for the others. -/
theorem destroys_of_reach {ok : State R K E → Action R K E → Prop} {s : State R K E}
    (hr : Reach (step cfg) ok State.new s) (g : GenId) :
    Destructed g s.mem (s.total (Pc.destroys g)) := by
  refine hr.invariant_of_reach (fun s => Destructed g s.mem (s.total (Pc.destroys g)))
    ⟨fun h => absurd h (Nat.not_lt_zero _), fun _ => rfl⟩ ?_
  intro s a s' hs ih _ h
  have hc := counted_of_reach hs
  refine total_step (Pc.destroys g) (Destructed g) h ?_ ?_ ?_ ?_ ?_
  · rintro t p k - rfl hr hk
    refine (wp_destroyed g (hc.held_le hr.1)).mono fun m p' c hd => ?_
    rw [Nat.add_assoc]
    exact (hk ▸ ih).step hd (hc.fresh g)
  · rintro t p p' k hj - hk
    rw [hk] at ih
    cases hj <;> exact ih
  · rintro c m p - hcall
    cases hcall <;> exact ih
  · exact fun _ _ _ => ih
  · rintro m c hh
    refine (show Destructed g s.mem (s.total (Pc.destroys g) + 0) from ih).step ?_ (hc.fresh g)
    rw [← Nat.zero_add ((c.map (Pc.destroys g)).getD 0)]
    exact hh.destroyed (fun _ _ => hc.pos_of_mem) g

/-- Two destructors of one entry are the same. -/
theorem destructor_eq {ok : State R K E → Action R K E → Prop} {s : State R K E}
    (hr : Reach (step cfg) ok State.new s) {t u : Tid} {g : GenId} {p q : Entry.DropPc}
    (ht : s.pc t = .drop g p) (hu : s.pc u = .drop g q) : t = u := by
  by_contra hne
  have lt {v : Tid} {r : Entry.DropPc} (hv : s.pc v = .drop g r) : v < s.size :=
    lt_size_of_ne_idle (fresh_of_reach hr) fun e => by rw [hv] at e; cases e
  have hle := Pool.add_le_total (Pc.destroys g) (lt ht) (lt hu) hne
  rw [ht, hu] at hle
  have h2 : isGen g (some g) + isGen g (some g) ≤ s.total (Pc.destroys g) := hle
  rw [isGen_self] at h2
  have hd := destroys_of_reach hr g
  have hk : g < s.mem.nextGen ∧ s.mem.strong g = 0 := by
    have := (known_of_reach hr).2 t
    rw [ht] at this
    exact this
  have := hd.1 hk.1 hk.2
  omega

/-- The destructor of an entry whose count is zero has been started. -/
theorem exists_destructor {ok : State R K E → Action R K E → Prop} {s : State R K E}
    (hr : Reach (step cfg) ok State.new s) (hg : g < s.mem.nextGen) (h0 : s.mem.strong g = 0) :
    ∃ t p, s.pc t = .drop g p := by
  have h1 := (destroys_of_reach hr g).1 hg h0
  obtain ⟨t, -, ht⟩ := Pool.exists_of_total_pos (h1 ▸ Nat.one_pos)
  refine ⟨t, ?_⟩
  revert ht
  unfold Pc.destroys
  split
  · rename_i x p heq
    intro ht
    rw [eq_of_isGen ht] at heq
    exact ⟨p, heq⟩
  · exact fun ht => absurd ht (Nat.lt_irrefl 0)

end Resourcery
