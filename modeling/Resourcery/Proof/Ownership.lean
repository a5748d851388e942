import Resourcery.Proof.Sites

/-!
# Owner claims

While the domain accepts and the executor drops no task, the slot an acquisition owns is attached:
the generation it creates is still behind its gate, so that no cleanup removes it. Hence at most one
acquisition of an identity holds the claim on it (`claimed_of_reach`).
-/

namespace Resourcery

open Interleaving Function Transition ResourceContext

variable {R K E : Type}

/-- The identity a thread holds the claim on, or is about to be granted it. -/
def Pc.claims? : Pc R K E → Option (Ident R K)
  | .acquire q (.claim .insert) | .acquire q (.claim (.takeover ..)) => some q.ident
  | p => p.owner?.map Prod.fst

variable {cfg : Config R K} {t : Tid} {m m' : Memory R K E} {p : Pc R K E} {g : GenId}
  {i : Ident R K} {x : Site}

/-- A thread that holds a claim, or is about to, has it among its claims; if it does not hold it
yet, it has locked the entry. -/
theorem claims_cases (h : p.claims? = some i) :
    p.shard? = some i ∨ ∃ x, p.owner? = some (i, x) := by
  unfold Pc.claims? at h
  split at h
  · cases h
    exact .inl rfl
  · cases h
    exact .inl rfl
  · obtain ⟨⟨j, x⟩, hx, rfl⟩ := Option.map_eq_some_iff.mp h
    exact .inr ⟨x, hx⟩

theorem claims_of_owner (h : p.owner? = some (i, x)) : p.claims? = some i := by
  unfold Pc.claims?
  split
  · cases h
  · cases h
  · rw [h]
    rfl

variable [DecidableEq R] [DecidableEq K]

/-! ## Counting the claims -/

/-- Whether a thread has a claim on `i`. -/
def Pc.claims (i : Ident R K) (p : Pc R K E) : ℕ := if p.claims? = some i then 1 else 0

theorem claims_pos : 0 < p.claims i ↔ p.claims? = some i := by
  unfold Pc.claims
  split_ifs with h <;> simp [h]

theorem claims_le_one (p : Pc R K E) : p.claims i ≤ 1 := by
  unfold Pc.claims
  split_ifs <;> omega

/-- A thread at this point has found that the claim on `i` can be granted. -/
def Pc.Grants (m : Memory R K E) (i : Ident R K) : Pc R K E → Prop
  | .acquire q (.claim .vacant) | .acquire q (.claim (.recheck ..)) => q.ident = i ∧ m.Accepting
  | _ => False

theorem wp_claims (i : Ident R K) : p.code.wp cfg t m fun _ p' c =>
    p'.claims i + (c.map (Pc.claims i)).getD 0 ≤ p.claims i ∨ p.Grants m i ∧ p'.claims i ≤ 1 ∧
      c = none := by
  cases p using Pc.points
  case' acquire_claim_dropState claim => cases claim
  case acquire_claim_vacant q =>
    refine ⟨fun ha => ?_, fun _ => .inl (Nat.zero_le _)⟩
    by_cases hi : q.ident = i
    · exact .inr ⟨⟨hi, ha⟩, claims_le_one _, rfl⟩
    · exact .inl (Nat.le_of_eq (if_neg fun e => hi (Option.some.inj e)))
  case acquire_claim_recheck q _ _ _ =>
    refine ⟨fun ha => ?_, fun _ => .inl (Nat.zero_le _)⟩
    by_cases hi : q.ident = i
    · exact .inr ⟨⟨hi, ha⟩, claims_le_one _, rfl⟩
    · exact .inl (Nat.le_of_eq (if_neg fun e => hi (Option.some.inj e)))
  case acquire_guard_remove_entry | supervise_cleanup_entry =>
    refine ⟨.inl (Nat.zero_le _), fun _ => ⟨fun _ _ => ?_, fun _ => .inl (Nat.zero_le _)⟩⟩
    dsimp only
    split
    · exact .inl (Nat.le_refl _)
    · exact .inl (Nat.zero_le _)
  all_goals
    repeat' first
      | exact trivial
      | apply And.intro
      | intro _
      | exact .inl (Nat.le_refl _)
      | exact .inl (Nat.zero_le _)

/-! ## One owner -/

omit [DecidableEq R] [DecidableEq K] in
/-- How far the owner of a site has come, as long as the domain accepts: it has not created a
generation, or it holds the sender of its gate. -/
theorem owner_stage (h : p.owner? = some (i, x)) (hk : p.Known m) (hs : p.Starts m)
    (ha : m.Accepting) : p.unmade? = some (i, x) ∨ p.givesUp? = some (i, x) ∨
      ∃ g, 0 < p.gate g ∧ m.Made i (some x) g := by
  cases_type* Pc AcquirePc CreatePc SettlePc GuardPc Registry.RemovePc
  all_goals try (cases h; done)
  case acquire.claim | acquire.cloneKey | acquire.cloneCleanupKey | acquire.create.accepting
      | acquire.create.build | acquire.create.newEntry => exact .inl h
  case acquire.settle.lateStart | acquire.settle.dropResource => exact .inr (.inl h)
  case acquire.guard.remove.entry | acquire.guard.remove.hasGeneration
      | acquire.guard.remove.dropState | acquire.guard.remove.remove => exact .inr (.inl h)
  case acquire.create.dropEntry | acquire.create.dropSender => exact absurd ha hs
  case acquire.settle.accepting | acquire.settle.lockState | acquire.settle.storeActive =>
    cases h
    exact .inr (.inr ⟨_, isGen_pos _, hk.1⟩)
  case acquire.create.spawnTask site g =>
    obtain ⟨y, rfl, hy⟩ := Option.map_eq_some_iff.mp h
    cases hy
    exact .inr (.inr ⟨_, isGen_pos _, hk.1⟩)
  case acquire.create.register site g p =>
    obtain ⟨y, rfl, hy⟩ := Option.map_eq_some_iff.mp h
    cases hy
    refine .inr (.inr ⟨_, isGen_pos _, ?_⟩)
    cases p
    case dropSupervisor id => cases id <;> exact hk.1
    all_goals exact hk.1
  all_goals
    obtain ⟨y, rfl, hy⟩ := Option.map_eq_some_iff.mp h
    cases hy
    exact .inr (.inr ⟨_, isGen_pos _, hk.1⟩)

variable {s s' : State R K E} {a : Action R K E} {ok : State R K E → Action R K E → Prop}

/-- The slot of an owner that has not created a generation is attached. -/
theorem attached_of_unmade (hs : Reach (step cfg) ok State.new s)
    (h : (s.pc t).unmade? = some (i, x)) : s.mem.Attached i x.slot := by
  have ho := (sited_of_reach hs).owns t
  exact (ho.owned (owner_of_unmade h)).2.2.resolve_right fun ⟨g, hmade, _⟩ =>
    ho.unused h g hmade.2.1 hmade.2.2

/-- While the domain accepts, an owned slot is attached: the task of the generation that is being
created is still behind its gate. -/
theorem attached_of_owner (hok : ∀ s a, ok s a → a.KeepsTask)
    (hs : Reach (step cfg) ok State.new s) (ha : s.mem.Accepting)
    (ho : (s.pc t).owner? = some (i, x)) : s.mem.Attached i x.slot := by
  have hc := sited_of_reach hs
  refine ((hc.owns t).owned ho).2.2.resolve_right fun ⟨g, hmade, hf⟩ => ?_
  rcases owner_stage ho ((known_of_reach hs).2 t) (starts_of_reach hs t) ha with h | h | ⟨g', hg, hm⟩
  · exact (hc.owns t).unused h g hmade.2.1 hmade.2.2
  · have := (hc.owns t).2.2.1
    rw [h] at this
    exact this ha g hmade.2.1 hmade.2.2
  · obtain rfl := hc.sites.inj g' g i x hm.2.1 hm.2.2 hmade.2.1 hmade.2.2
    have hpend := guards_of_reach hs t g' hg
    have := not_ended_of_shut (shut_of_reach hok hs) (lasting_of_reach hs) ha hpend
    rw [late_of_reach hs g' hf] at this
    cases this

/-- At most one claim on each identity. -/
def Claimed (s : State R K E) : Prop := ∀ i, s.total (Pc.claims i) ≤ 1

section

variable (hok : ∀ s a, ok s a → a.KeepsTask) (hs : Reach (step cfg) ok State.new s)
include hs

/-- Two threads with a claim on one identity are the same. -/
theorem Claimed.eq {u : Tid} (hc : Claimed s) (ht : (s.pc t).claims? = some i)
    (hu : (s.pc u).claims? = some i) : t = u := by
  have lt {v : Tid} (hv : (s.pc v).claims? = some i) : v < s.size :=
    lt_size_of_ne_idle (fresh_of_reach hs) fun e => by rw [e] at hv; cases hv
  by_contra hne
  have hle := Pool.add_le_total (Pc.claims i) (lt ht) (lt hu) hne
  have h1 : 0 < (s.pc t).claims i := claims_pos.mpr ht
  have h2 : 0 < (s.pc u).claims i := claims_pos.mpr hu
  have := hc i
  omega

include hok in
/-- The claim on an identity is granted only when nobody has it. -/
theorem no_claims (hg : (s.pc t).Grants s.mem i) : s.total (Pc.claims i) = 0 := by
  have hl := locked_of_reach hs
  by_contra hne
  obtain ⟨u, hu, hpos⟩ := Pool.exists_of_total_pos (Nat.pos_of_ne_zero hne)
  have hclaim := claims_pos.mp hpos
  have hsees := (sees_of_reach hs).2 t
  have hlock := (hl t).shard
  -- another claim is that of an owner, since this thread has locked the entry
  have howner : (s.pc t).shard? = some i → (s.pc t).claims? ≠ some i →
      ∃ x, (s.pc u).owner? = some (i, x) := by
    intro he hn
    refine (claims_cases hclaim).resolve_left fun he' => hn ?_
    have h1 := (hl u).shard
    rw [he] at hlock
    rw [he'] at h1
    obtain rfl : t = u := Option.some.inj (hlock.symm.trans h1)
    exact hclaim
  revert hg hsees howner
  generalize s.pc t = p
  intro hg hsees howner
  unfold Pc.Grants at hg
  split at hg
  · obtain ⟨rfl, ha⟩ := hg
    obtain ⟨x, hx⟩ := howner rfl nofun
    exact nomatch (attached_of_owner hok hs ha hx).symm.trans hsees
  · obtain ⟨rfl, ha⟩ := hg
    obtain ⟨x, hx⟩ := howner rfl nofun
    have hslot := Option.some.inj ((attached_of_owner hok hs ha hx).symm.trans hsees.1)
    have hst := (((sited_of_reach hs).owns u).owned hx).2.1
    rw [hslot, hsees.2] at hst
    cases hst
  · exact hg

end

/-- **Owners.** In every run in which the executor drops no task. -/
theorem claimed_of_reach (hok : ∀ s a, ok s a → a.KeepsTask)
    (hs : Reach (step cfg) ok State.new s) : Claimed s := by
  refine hs.invariant_of_reach Claimed (fun _ => Nat.zero_le _) ?_
  intro s a s' hs hc _ h i
  have hle := hc i
  refine total_step (Pc.claims i) (fun _ n => n ≤ 1) h ?_ ?_ ?_ ?_ ?_
  · rintro t p k - rfl hr hk
    refine (wp_claims i).mono fun m p' c hcl => ?_
    rcases hcl with hle | ⟨hg, hle, rfl⟩
    · omega
    · have hzero := no_claims hok hs hg
      have hnone : ((none : Option (Pc R K E)).map (Pc.claims i)).getD 0 = 0 := rfl
      omega
  · rintro t p p' k hj - hk
    have hle : p'.claims i ≤ p.claims i := by cases hj <;> exact Nat.le_refl _
    omega
  · rintro c m p - hcall
    have h0 : p.claims i = 0 := by cases hcall <;> rfl
    omega
  · exact fun _ _ _ => hle
  · rintro m c hh
    have h0 : (c.map (Pc.claims i)).getD 0 = 0 := by cases hh <;> rfl
    omega

end Resourcery
