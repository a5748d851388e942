import Resourcery.Proof.Terminal

/-!
# Orphaned claims

`finish_canonical_creation` clones the key before its construction guard is armed, and the guard
looks the slot up by the key. When one of these key operations panics, the claim is lost: the slot
stays starting with no owner, and nothing in the program removes or activates it.
-/

namespace Resourcery

open Interleaving Function Transition ResourceContext

variable {R K E : Type}

/-- The slot of the establishment `x` of `i` is attached and starting, no generation has been
created for it, and nobody owns it. -/
structure Orphaned (s : State R K E) (i : Ident R K) (x : Site) : Prop where
  attached : s.mem.Attached i x.slot
  starting : s.mem.state i x.slot = .starting x.generation
  unused : s.mem.Unused i x
  unowned : ∀ u, (s.pc u).site? ≠ some (i, x.slot)

variable {cfg : Config R K} {t u : Tid} {ch : Choice} {s s' v v' : State R K E}
  {a : Action R K E} {ok : State R K E → Action R K E → Prop} {i : Ident R K} {x : Site}
  {m : Memory R K E} {vs : List (State R K E)}

theorem Orphaned.lookup (h : Orphaned s i x) : s.mem.lookup i = .starting :=
  lookup_of_starting h.attached h.starting

theorem Memory.Unused.not_over {m : Memory R K E} (h : m.Unused i x) : ¬ m.Over i x := by
  rintro ⟨g, ⟨-, hi, hx⟩, -⟩
  exact h g hi hx

/-- A thread that goes on at `p'` has left the memory as it was if it has panicked. -/
def KeepsOnPanic (m m' : Memory R K E) (p' : Pc R K E) : Prop :=
  ∀ q, p' = .acquire q (.returned .panicked) → m' = m

theorem KeepsOnPanic.same {p' : Pc R K E} : KeepsOnPanic m m p' := fun _ _ => rfl

theorem KeepsOnPanic.elsewhere {m' : Memory R K E} {p' : Pc R K E}
    (h : ∀ q, p' ≠ .acquire q (.returned .panicked)) : KeepsOnPanic m m' p' :=
  fun q hp => absurd hp (h q)

/-- Only a canonical identity is claimed. -/
theorem canonical_of_owner {p : Pc R K E} (h : p.owner? = some (i, x)) (ht : p.Typed cfg) :
    cfg.canonical i.ty = true := by
  cases p with
  | acquire q p =>
    obtain ⟨y, hy, he⟩ := Option.map_eq_some_iff.mp h
    cases he
    cases p with
    | create site p =>
      cases hy
      exact ht.symm
    | start | deliver | returned | listener | accepting => cases hy
    | _ => exact ht.symm
  | _ => cases h

section

variable [DecidableEq R] [DecidableEq K]

theorem Orphaned.total_sites (h : Orphaned s i x) : s.total (Pc.sites i x.slot) = 0 := by
  by_contra hne
  obtain ⟨u, -, hpos⟩ := Pool.exists_of_total_pos (Nat.pos_of_ne_zero hne)
  exact h.unowned u (sites_pos.mp hpos)

/-- An orphaned slot stays so: whoever takes a slot out of the map owns it or has seen its
generation end, and a claim takes over active slots only. -/
theorem Orphaned.step (ho : Orphaned s i x) (hs : Reach (Resourcery.step cfg) ok State.new s)
    (h : Resourcery.step cfg s a = some s') : Orphaned s' i x := by
  obtain ⟨hb, hsees⟩ := sees_of_reach hs
  have hc := sited_of_reach hs
  have hlt : x.slot < s.mem.nextSlot i := hb i _ ho.attached
  have hown : s.mem.Owned i x := ⟨hlt, ho.starting, .inl ho.attached⟩
  have hapart : Apart i x.slot s.mem s'.mem := apart_step h fun t _ _ => ho.unowned t
  have hatt : s'.mem.Attached i x.slot ∨ s.mem.Over i x := by
    refine mem_step (fun m => m.Attached i x.slot ∨ s.mem.Over i x) h hown.2.2 ?_ ?_ ?_ ?_
    · rintro t p - rfl -
      exact wp_covers (covers_of_owns hown (ho.unowned t) (hc.owns t) (hsees t)
        ((known_of_reach hs).2 t) (joined_of_reach hs t)) hown.2.2
    · rintro c m p - hcall
      cases hcall <;> exact hown.2.2
    · exact fun _ _ _ => hown.2.2
    · rintro m c hh
      cases hh <;> exact hown.2.2
  suffices hzero : s'.total (Pc.sites i x.slot) = 0 by
    refine ⟨hatt.resolve_right ho.unused.not_over, (hapart.state hlt).trans ho.starting,
      ho.unused.apart hapart, fun u hu => ?_⟩
    have hsize : u < s'.size :=
      lt_size_of_ne_idle (fresh_step h (fresh_of_reach hs)) fun e => by rw [e] at hu; cases hu
    have := Pool.le_total (Pc.sites i x.slot) hsize
    have := sites_pos.mpr hu
    omega
  refine total_step (Pc.sites i x.slot) (fun _ n => n = 0) h ?_ ?_ ?_ ?_ ?_
  · rintro t p k - rfl - hk
    have htakes : ¬ (s.pc t).Takes s.mem i x.slot := by
      have hseest := hsees t
      intro hg
      unfold Pc.Takes at hg
      split at hg
      case h_1 q hp => exact absurd hg.2 hlt.ne
      case h_2 q k generation g hp =>
        obtain ⟨rfl, rfl⟩ := hg
        rw [hp] at hseest
        have := hseest.2.symm.trans ho.starting
        cases this
      case h_3 => exact hg
    refine (wp_slots i x.slot).mono fun m p' c hcl => ?_
    have := ho.total_sites
    have := hcl.resolve_right fun hg => htakes hg.1
    omega
  · rintro t p p' k hj - hk
    have := ho.total_sites
    have hle : p'.sites i x.slot ≤ p.sites i x.slot := by cases hj <;> exact Nat.le_refl _
    omega
  · rintro c m p - hcall
    have := ho.total_sites
    have h0 : p.sites i x.slot = 0 := by cases hcall <;> rfl
    omega
  · exact fun _ _ _ => ho.total_sites
  · rintro m c hh
    have := ho.total_sites
    have h0 : (c.map (Pc.sites i x.slot)).getD 0 = 0 := by cases hh <;> rfl
    omega

theorem Orphaned.of_reach (ho : Orphaned s i x) (hs : Reach (Resourcery.step cfg) ok State.new s)
    (hr : Reach (Resourcery.step cfg) ok s s') : Orphaned s' i x :=
  hr.invariant_of_reach (fun s => Orphaned s i x) ho
    fun _ _ _ hr ho _ h => ho.step (hs.trans hr) h

/-- An owner that panics leaves the memory as it is. -/
theorem keepsOnPanic_run {p : Pc R K E} (h : p.owner? = some (i, x)) :
    p.code.wp cfg t m fun m' p' _ => KeepsOnPanic m m' p' := by
  cases p with
  | acquire q p =>
    cases q, p using AcquirePc.points
    case cloneKey => exact ⟨.same, .elsewhere fun _ h => by cases h⟩
    case guard_remove_entry =>
      refine ⟨.same, fun _ => ⟨fun _ _ => ?_, fun _ => .elsewhere fun _ h => by cases h⟩⟩
      dsimp only
      split <;> exact .elsewhere fun _ h => by cases h
    all_goals first
      | cases h; done
      | repeat' first
        | exact .elsewhere fun _ h => by cases h
        | apply And.intro
        | intro _
  | _ => cases h

/-- **The claim is lost** when its owner panics before it has created a generation. -/
theorem orphaned_of_panic {q : Request R K} (hs : Reach (Resourcery.step cfg) ok State.new s)
    (h : Resourcery.step cfg s (.run t ch) = some s') (ho : (s.pc t).owner? = some (i, x))
    (hx : s.mem.Unused i x) (hp : s'.pc t = .acquire q (.returned .panicked)) :
    Orphaned s' i x := by
  have hc := sited_of_reach hs
  have hown := (hc.owns t).owned ho
  obtain ⟨-, habandons⟩ := pc_of_run h (keepsOnPanic_run ho)
  have hm : s'.mem = s.mem := habandons q hp
  refine ⟨?_, ?_, ?_, fun u hu => ?_⟩
  · rw [hm]
    exact hown.2.2.resolve_right hx.not_over
  · rw [hm]
    exact hown.2.1
  · rw [hm]
    exact hx
  · have hne : u ≠ t := by
      rintro rfl
      rw [hp] at hu
      cases hu
    rcases thread_cases h (fresh_of_reach hs) u with he | ⟨_, _, ha, -⟩ | ⟨hj, -⟩ | ⟨-, hi⟩
    · rw [he] at hu
      exact hne (hc.eq hs hu (site_of_owner ho))
    · cases ha
      exact hne rfl
    · generalize s.pc u = p at hj
      cases hj
    · generalize s'.pc u = p' at hi hu
      cases p'
      case acquire q p =>
        rcases hi with rfl | rfl <;> cases hu
      all_goals cases hu

/-- **A lost claim wedges its identity.** In every run in which the owner of a claim panics before
it has created a generation, the identity is starting in every later state. A `get` or `status` that
begins afterwards reports that. No acquisition of the identity that begins afterwards ever comes to
`create`; if it ends, it is answered `Occupied` or `ShuttingDown`, or its future has been dropped, or
a key operation of its own has panicked. -/
theorem lost_claim_wedges_identity {q : Request R K}
    (hs : Trace (Resourcery.step cfg) ok State.new vs s)
    (hv : Reach (Resourcery.step cfg) ok State.new v)
    (h : Resourcery.step cfg v (.run t ch) = some v') (hv' : v' ∈ vs)
    (ho : (v.pc t).owner? = some (i, x)) (hx : v.mem.Unused i x)
    (hp : v'.pc t = .acquire q (.returned .panicked)) (hu : v'.pc u = .idle) :
    s.mem.lookup i = .starting ∧
    (∀ d st, s.pc u = .discover d i (.returned st) → st = .starting) ∧
    (∀ r site p, s.pc u = .acquire r (.create site p) → r.ident ≠ i) ∧
    ∀ r result, s.pc u = .acquire r (.returned result) → r.ident = i →
      result = .err .occupied ∨ result = .err .shuttingDown ∨ result = .dropped ∨
        result = .panicked := by
  have ho' := orphaned_of_panic hv h ho hx hp
  have hcan := canonical_of_owner ho ((placed_of_reach hv).2 t)
  obtain ⟨hr, hr'⟩ := hs.reach_of_mem hv'
  have wedged {w : State R K E} (hw : Reach (Resourcery.step cfg) ok v' w) :
      w.mem.lookup i = .starting := (ho'.of_reach hr hw).lookup
  have saw {P : Memory R K E → Prop} (hP : Was vs u P) :
      ∃ m : Memory R K E, m.lookup i = .starting ∧ P m := by
    obtain ⟨w, hw, -, -, hP⟩ := during_after hs hv' hu (fun _ => not_idle_of_inCall) hP
    exact ⟨w.mem, wedged hw, hP⟩
  have hsaw := saw_of_trace hs u
  have occupied {P : Memory R K E → Prop} (hP : Was vs u P)
      (hvac : ∀ m, P m → m.Vacant (cfg.canonical i.ty) i) : False := by
    obtain ⟨m, hm, hP⟩ := saw hP
    have := hm.symm.trans (hvac m hP hcan)
    cases this
  refine ⟨wedged hr', fun d st hd => ?_, fun r site p hcreate hri => ?_, fun r result hret hri => ?_⟩
  · rw [hd] at hsaw
    obtain ⟨m, hm, hst⟩ := saw (P := fun m => m.lookup i = st) hsaw
    exact hst.symm.trans hm
  · subst hri
    rw [hcreate] at hsaw
    exact occupied hsaw.2 fun _ h => h.1
  · subst hri
    rw [hret] at hsaw
    rcases result with g | (_ | _ | _) | _ | _
    · rcases hsaw with hg | ⟨-, hg⟩
      · obtain ⟨m, hm, hg⟩ := saw (P := fun m => m.lookup r.ident = .active g) hg
        have := hm.symm.trans hg
        cases this
      · exact (occupied hg fun _ h => h.1).elim
    · exact .inl rfl
    · exact .inr (.inl rfl)
    · exact (occupied (P := fun m => m.Vacant (cfg.canonical r.ident.ty) r.ident) hsaw
        fun _ h => h).elim
    · exact .inr (.inr (.inl rfl))
    · exact .inr (.inr (.inr rfl))

end

/-- A `get_or_spawn` that has been granted the claim. -/
def claimedRun : List (Action Unit Unit Unit) :=
  .call (.acquire ⟨.getOrSpawn, ⟨(), ()⟩⟩) :: List.replicate 5 (.run 0 .go)

/-- The clone of its key panics. -/
def lostRun : List (Action Unit Unit Unit) := claimedRun ++ [.run 0 .keyPanics]

/-- A `status` begins. -/
def wedgedRun : List (Action Unit Unit Unit) :=
  .call (.discover .status ⟨(), ()⟩) :: List.replicate 3 (.run 1 .go)

theorem wedgedRun_starting : ((afterwards true (lostRun ++ wedgedRun)).get
    (by decide +kernel)).mem.lookup ⟨(), ()⟩ = .starting := by
  have hs : Trace (step (.single true)) (fun _ _ => True) State.new
      (visited (step (.single true)) [State.new] State.new (lostRun ++ wedgedRun))
      ((afterwards true (lostRun ++ wedgedRun)).get (by decide +kernel)) :=
    trace_exec (P := fun _ => True) (fun _ _ h => h) (fun _ _ => trivial) (by decide +kernel)
  have hv : Reach (step (.single true)) (fun _ _ => True) State.new
      ((afterwards true claimedRun).get (by decide +kernel)) :=
    reach_afterwards (fun _ => True) (fun _ _ => trivial) (by decide +kernel)
  have h : step (.single true) ((afterwards true claimedRun).get (by decide +kernel))
      (.run 0 .keyPanics) = some ((afterwards true lostRun).get (by decide +kernel)) := by
    rw [Option.some_get]
    rfl
  have hv' : (afterwards true lostRun).get (by decide +kernel) ∈
      visited (step (.single true)) [State.new] State.new (lostRun ++ wedgedRun) :=
    mem_visited (List.mem_singleton.mpr rfl) (Option.some_get _).symm _
  have ho : (((afterwards true claimedRun).get (by decide +kernel)).pc 0).owner? =
      some (⟨(), ()⟩, ⟨0, 1⟩) := by decide +kernel
  have hx : ((afterwards true claimedRun).get (by decide +kernel)).mem.Unused ⟨(), ()⟩ ⟨0, 1⟩ :=
    ((sited_of_reach hv).owns 0).unused (by decide +kernel)
  have hp : ((afterwards true lostRun).get (by decide +kernel)).pc 0 =
      .acquire ⟨.getOrSpawn, ⟨(), ()⟩⟩ (.returned .panicked) := by decide +kernel
  exact (lost_claim_wedges_identity (u := 1) hs hv h hv' ho hx hp (by decide +kernel)).1

end Resourcery
