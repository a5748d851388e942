import Resourcery.Proof.Sites

/-!
# Establishments

A slot and a generation number name one establishment: the pair is granted once, the numbers of a
slot only go up, a slot that has been detached stays so, and whoever removes a slot removes its own
establishment.
-/

namespace Resourcery

open Interleaving Function Transition ResourceContext

variable {R K E : Type}

/-- The site a thread is about to be granted the claim on. -/
def Pc.grants? (m : Memory R K E) : Pc R K E → Option (Ident R K × Site)
  | .acquire q (.claim .insert) => some (q.ident, ⟨m.nextSlot q.ident, 1⟩)
  | .acquire q (.claim (.takeover n generation _)) => some (q.ident, ⟨n, generation + 1⟩)
  | _ => none

/-- The site whose slot a thread is about to take out of the map. -/
def Pc.removes? : Pc R K E → Option (Ident R K × Site)
  | .acquire q (.guard n generation _ (.remove .remove)) => some (q.ident, ⟨n, generation⟩)
  | .supervise i _ _ _ (.cleanup x _ .remove) => some (i, x)
  | _ => none

/-- The site `x` of `i` has been granted. -/
def Memory.Granted (m : Memory R K E) (i : Ident R K) (x : Site) : Prop :=
  x.slot < m.nextSlot i ∧ x.generation ≤ (m.state i x.slot).generation

variable {cfg : Config R K} {t u : Tid} {ch : Choice} {m m' : Memory R K E} {p : Pc R K E}
  {g : GenId} {i : Ident R K} {x y : Site} {n : ℕ}

/-! ## Who removes what -/

/-- A thread that removes a slot is its owner, on the way to a failure, or a cleanup. -/
theorem removes_cases (h : p.removes? = some (i, x)) :
    p.owner? = some (i, x) ∨
      ∃ g id site outcome, p = .supervise i g id site (.cleanup x outcome .remove) := by
  unfold Pc.removes? at h
  split at h <;> cases h
  · exact .inl rfl
  · exact .inr ⟨_, _, _, _, rfl⟩

variable [DecidableEq R] [DecidableEq K]

/-! ## The numbers of a slot -/

theorem wp_generation {α : Type} {ins : Instr R K E α} (hi : ins.Sited m) (hn : n < m.nextSlot i) :
    ins.wp cfg t m fun m' _ _ => (m.state i n).generation ≤ (m'.state i n).generation := by
  cases ins
  case storeState j k st _ =>
    show _ ≤ (update₂ m.state j k st i n).generation
    rw [update₂_apply]
    split_ifs with he
    · obtain ⟨rfl, rfl⟩ := he
      exact hi.2.1
    · exact Nat.le_refl _
  case insertSlot j _ =>
    show _ ≤ (update₂ m.state j (m.nextSlot j) (.starting 1) i n).generation
    rw [update₂_apply]
    split_ifs with he
    · obtain ⟨rfl, rfl⟩ := he
      exact absurd hn (Nat.lt_irrefl _)
    · exact Nat.le_refl _
  all_goals
    repeat' first
      | exact trivial
      | apply And.intro
      | intro _
      | exact Nat.le_refl _

section

variable {s s' : State R K E} {a : Action R K E} {ok : State R K E → Action R K E → Prop}

/-- The numbers of a slot only go up. -/
theorem generation_step (hs : Reach (step cfg) ok State.new s) (h : step cfg s a = some s')
    (hn : n < s.mem.nextSlot i) :
    (s.mem.state i n).generation ≤ (s'.mem.state i n).generation := by
  have hc := sited_of_reach hs
  obtain ⟨hb, hsees⟩ := sees_of_reach hs
  have hk := (known_of_reach hs).2
  refine mem_step (fun m => (s.mem.state i n).generation ≤ (m.state i n).generation) h
    (Nat.le_refl _) ?_ ?_ ?_ ?_
  · rintro t p - rfl -
    exact wp_generation (sited_of_owns hb (hc.owns t) (hsees t) (hk t)) hn
  · rintro c m p - hcall
    cases hcall <;> exact Nat.le_refl _
  · exact fun _ _ _ => Nat.le_refl _
  · rintro m c hh
    cases hh <;> exact Nat.le_refl _

/-- A site that has been granted has been granted for good. -/
theorem granted_of_reach (hs : Reach (step cfg) ok State.new s) (hr : Reach (step cfg) ok s s')
    (hx : s.mem.Granted i x) : s'.mem.Granted i x := by
  refine hr.invariant_of_reach (fun s => s.mem.Granted i x) hx ?_
  rintro u a u' hu ⟨hn, hg⟩ - h
  exact ⟨hn.trans_le ((grows_step h).nextSlot i), hg.trans (generation_step (hs.trans hu) h hn)⟩

/-- What is granted has not been granted before. -/
theorem not_granted (hs : Reach (step cfg) ok State.new s)
    (hg : (s.pc t).grants? s.mem = some (i, x)) : ¬ s.mem.Granted i x := by
  have hsees := (sees_of_reach hs).2 t
  revert hg hsees
  generalize s.pc t = p
  intro hg hsees hx
  unfold Pc.grants? at hg
  split at hg <;> cases hg
  · exact Nat.lt_irrefl _ hx.1
  · have hst := hsees.2
    have hle := hx.2
    rw [hst] at hle
    exact Nat.not_succ_le_self _ hle

/-! ## The grant -/

/-- A claim is held only after it has been granted. -/
theorem wp_granted (p : Pc R K E) : p.code.wp cfg t m fun _ p' c =>
    (p'.owner? = none ∨ p'.owner? = p.owner? ∨ p'.owner? = p.grants? m) ∧
      ForSome (fun c => c.owner? = none) c := by
  cases p using Pc.points
  case' acquire_claim_dropState claim => cases claim
  case acquire_guard_remove_entry | supervise_cleanup_entry =>
    refine ⟨⟨.inl rfl, trivial⟩, fun _ => ⟨fun _ _ => ⟨?_, trivial⟩, fun _ => ⟨.inl rfl, trivial⟩⟩⟩
    dsimp only
    split
    · exact .inr (.inl rfl)
    · exact .inl rfl
  all_goals
    repeat' first
      | exact trivial
      | exact rfl
      | apply And.intro
      | intro _
      | exact .inl rfl
      | exact .inr (.inl rfl)
      | exact .inr (.inr rfl)

/-- A claim is held by those to whom it was granted: when one appears, its holder was at the point
of its grant. -/
theorem owner_step (h : step cfg s a = some s') (ho : (s'.pc u).owner? = some (i, x)) :
    (s.pc u).owner? = some (i, x) ∨
      a.actor = some u ∧ (s.pc u).grants? s.mem = some (i, x) := by
  revert ho
  refine forall_pc_step (fun _ u p => p.owner? = some (i, x) → (s.pc u).owner? = some (i, x) ∨
    a.actor = some u ∧ (s.pc u).grants? s.mem = some (i, x)) h (fun _ => .inl)
    (fun _ _ => .inl) ?_ ?_ ?_ ?_ u
  · rintro t p hat rfl - -
    refine (wp_granted (s.pc t)).mono fun _ p' c ⟨hp, hc⟩ => ⟨fun ho => ?_, ?_⟩
    · rcases hp with hp | hp | hp
      · exact nomatch hp.symm.trans ho
      · exact .inl (hp.symm.trans ho)
      · exact .inr ⟨hat, hp.symm.trans ho⟩
    · cases c with
      | none => trivial
      | some c => exact fun ho => nomatch (show c.owner? = none from hc).symm.trans ho
  · rintro t p p' hj rfl - - ho
    revert ho
    generalize s.pc t = p at hj
    cases hj <;> intro ho <;> first | cases ho; done | exact .inl ho
  · rintro c m p rfl hc ho
    cases hc <;> cases ho
  · rintro m c hh ho
    cases hh
    cases ho

/-- A thread at the point of a grant is granted the claim. -/
theorem wp_grant (hb : m.Bounded) (hs : p.Sees m) (hg : p.grants? m = some (i, x)) :
    p.code.wp cfg t m fun m' p' _ => p'.owner? = some (i, x) ∧ m'.Granted i x := by
  unfold Pc.grants? at hg
  split at hg <;> cases hg
  case h_1 q =>
    refine ⟨rfl, ?_, ?_⟩
    · show m.nextSlot q.ident < update m.nextSlot q.ident _ q.ident
      rw [update_self]
      exact Nat.lt_succ_self _
    · show 1 ≤ (update₂ m.state q.ident (m.nextSlot q.ident) (.starting 1) q.ident
        (m.nextSlot q.ident)).generation
      rw [update₂_self]
      exact Nat.le_refl _
  case h_2 q n generation g =>
    refine ⟨rfl, hb _ _ hs.1, ?_⟩
    show generation + 1 ≤
      (update₂ m.state q.ident n (.starting (generation + 1)) q.ident n).generation
    rw [update₂_self]
    exact Nat.le_refl _

theorem wp_remove (hg : p.removes? = some (i, x)) :
    p.code.wp cfg t m fun m' _ _ => m'.entries = update m.entries i none := by
  unfold Pc.removes? at hg
  split at hg <;> cases hg <;> rfl

/-! ## Removals -/

/-- What is removed is attached and has the number of the one who removes it. -/
theorem removed_own (hs : Reach (step cfg) ok State.new s)
    (hx : (s.pc t).removes? = some (i, x)) :
    s.mem.Attached i x.slot ∧ (s.mem.state i x.slot).generation = x.generation := by
  have hsees := (sees_of_reach hs).2 t
  have hown := (sited_of_reach hs).owns t
  rcases removes_cases hx with ho | ⟨g, id, site, outcome, hp⟩
  · refine ⟨?_, ?_⟩
    · revert hx hsees
      generalize s.pc t = p
      intro hx hsees
      unfold Pc.removes? at hx
      split at hx <;> cases hx <;> exact hsees
    · rw [(hown.owned ho).2.1]
      rfl
  · rw [hp] at hsees hown
    exact ⟨hsees, hown.2.2.2⟩

/-- Nobody else owns the slot that is removed, but the creator of the generation that is cleaned
up. -/
theorem removed_alone (hs : Reach (step cfg) ok State.new s)
    (hx : (s.pc t).removes? = some (i, x)) (hu : (s.pc u).owner? = some (i, y))
    (hn : y.slot = x.slot) : u = t ∨ y = x ∧ (s.pc u).unmade? = none := by
  have hc := sited_of_reach hs
  rcases removes_cases hx with ho | ⟨g, id, site, outcome, hp⟩
  · exact .inl (hc.eq hs (hn ▸ site_of_owner hu) (site_of_owner ho))
  · have hgen := (removed_own hs hx).2
    have hst := ((hc.owns u).owned hu).2.1
    rw [← hn, hst] at hgen
    obtain rfl : y = x := by
      cases x; cases y; cases hn; cases hgen; rfl
    refine .inr ⟨rfl, ?_⟩
    have hk := (known_of_reach hs).2 t
    rw [hp] at hk
    obtain ⟨hmade, -, hsite⟩ := hk
    cases hun : (s.pc u).unmade? with
    | none => rfl
    | some o =>
      have hou := owner_of_unmade hun
      rw [hu] at hou
      cases hou
      exact absurd (hmade.2.2.trans hsite) ((hc.owns u).unused hun g hmade.2.1)

/-- **Slot ownership is unforgeable.** In every run: a slot with a generation number is granted at
most once, and owned only by the one to whom it was granted; a slot is activated while it is
starting with its owner's number; a slot that has been detached is never attached again; a removal
takes out the slot of the establishment of the one who removes it, and no other entry, and nobody
else is constructing or has activated that slot; and a cleanup is that of its own generation. -/
theorem slot_ownership_is_unforgeable (hs : Reach (step cfg) (fun _ _ => True) State.new s) :
    (∀ t ch s' i x, step cfg s (.run t ch) = some s' → (s.pc t).grants? s.mem = some (i, x) →
      (s'.pc t).owner? = some (i, x) ∧
        ∀ v u, Reach (step cfg) (fun _ _ => True) s' v → (v.pc u).grants? v.mem ≠ some (i, x)) ∧
    (∀ a s' u i x, step cfg s a = some s' → (s'.pc u).owner? = some (i, x) →
      (s.pc u).owner? = some (i, x) ∨
        a.actor = some u ∧ (s.pc u).grants? s.mem = some (i, x)) ∧
    (∀ t q n generation g, s.pc t = .acquire q (.settle n generation g .storeActive) →
      s.mem.state q.ident n = .starting generation) ∧
    (∀ v i n, Reach (step cfg) (fun _ _ => True) s v → n < s.mem.nextSlot i → ¬ s.mem.Attached i n →
      ¬ v.mem.Attached i n) ∧
    (∀ t ch s' i x, step cfg s (.run t ch) = some s' → (s.pc t).removes? = some (i, x) →
      (s.mem.Attached i x.slot ∧ (s.mem.state i x.slot).generation = x.generation) ∧
        s'.mem.entries = update s.mem.entries i none ∧
        (∀ u y, (s.pc u).owner? = some (i, y) → y.slot = x.slot →
          u = t ∨ y = x ∧ (s.pc u).unmade? = none) ∧
        ∀ generation g, s.mem.state i x.slot = .active generation g →
          s.mem.Made i (some x) g) ∧
    (∀ t i g id site x outcome, s.pc t = .supervise i g id site (.cleanup x outcome .remove) →
      s.mem.Made i (some x) g ∧ s.mem.control g = .finished) := by
  have hc := sited_of_reach hs
  refine ⟨fun t ch s' i x h hg => ?_, fun a s' u i x h ho => owner_step h ho,
    fun t q n generation g hp => ?_,
    fun v i n hr hn hd hv => hd ((grows_of_reach hr).attached i n hn hv),
    fun t ch s' i x h hx => ⟨removed_own hs hx, ?_, fun u y hu hn => removed_alone hs hx hu hn,
      fun generation g hst => ?_⟩, fun t i g id site x outcome hp => ?_⟩
  · obtain ⟨_, ho, hgr⟩ := pc_of_run h (wp_grant (sees_of_reach hs).1 ((sees_of_reach hs).2 t) hg)
    refine ⟨ho, fun v u hr hg' => ?_⟩
    have hs' := hs.tail ⟨.run t ch, trivial, h⟩
    exact not_granted (hs'.trans hr) hg' (granted_of_reach hs' hr hgr)
  · have howned := (hc.owns t).owned (show (s.pc t).owner? = some (q.ident, ⟨n, generation⟩) by
      rw [hp]; rfl)
    exact howned.2.1
  · exact (pc_of_run h (wp_remove hx)).choose_spec
  · have hgen := (removed_own hs hx).2
    have hact := (hc.sites.active i x.slot generation g hst).1
    rw [hst] at hgen
    obtain rfl : generation = x.generation := hgen
    exact hact
  · have hk := (known_of_reach hs).2 t
    have hj := joined_of_reach hs t
    rw [hp] at hk hj
    obtain ⟨hmade, -, hsite⟩ := hk
    exact ⟨(show site = some x from hsite) ▸ hmade, hj.2⟩

end

/-- An acquisition that is about to activate its slot. -/
def settlingRun : List (Action Unit Unit Unit) :=
  .call (.acquire ⟨.getOrSpawn, ⟨(), ()⟩⟩) :: List.replicate 21 (.run 0 .go)

theorem settlingRun_starting :
    ((afterwards true settlingRun).get (by decide +kernel)).mem.state ⟨(), ()⟩ 0 = .starting 1 :=
  (slot_ownership_is_unforgeable
    (reach_afterwards (fun _ => True) (fun _ _ => trivial) (by decide +kernel))).2.2.1
    0 ⟨.getOrSpawn, ⟨(), ()⟩⟩ 0 1 0 (by decide +kernel)

end Resourcery
