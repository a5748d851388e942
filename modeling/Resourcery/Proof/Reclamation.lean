import Resourcery.Lib.Graph
import Resourcery.Proof.Cancellation
import Resourcery.Proof.Ending

/-!
# Reclamation

The interface and the task of a generation own references to others. When a domain has settled, an
acyclic graph of these leases is held together from outside: what no outside reference reaches has
ended.
-/

namespace Resourcery

open Interleaving Relation Transition ResourceContext

variable {R K E : Type}

/-! ## The lease graph -/

/-- The interface or the task of `a` owns a reference to `b`. -/
def Memory.Owns (m : Memory R K E) (a b : GenId) : Prop :=
  (.interface a, b) ∈ m.refs ∨ (.task a, b) ∈ m.refs

/-- A chain of leases from a `ResourceRef` to `r` that is held outside all generations leads to
`g`. -/
def Memory.Reaches (m : Memory R K E) (r g : GenId) : Prop :=
  (.outside, r) ∈ m.refs ∧ ReflTransGen m.Owns r g

/-! ## Settled states -/

/-- There is no step left. -/
def Instr.halts {α : Type} : Instr R K E α → Bool
  | .halt => true
  | _ => false

/-- The thread has come to its end, awaits an outcome or supervises a task. -/
def Pc.resting : Pc R K E → Bool
  | .wait .. | .supervise .. => true
  | p => p.code.halts

/-- An accepting domain in which no operation and no drop is in progress and every task whose token
is cancelled has ended. A drop is in progress also while something that is no longer there, the
interface of a dropped entry or an ended task, has references left to release. -/
structure Settled (s : State R K E) : Prop where
  accepting : s.mem.Accepting
  resting : ∀ t, (s.pc t).resting = true
  released : ∀ h g, (h, g) ∈ s.mem.refs → s.mem.Alive h
  ended : ∀ g, g < s.mem.nextGen → s.mem.Cancelled g → (s.mem.task g).hasEnded = true

variable {cfg : Config R K} {p : Pc R K E} {g : GenId}

theorem held_of_resting (h : p.resting = true) : p.held g = 0 := by
  cases p using Pc.points
  all_goals first
    | exact absurd (h : false = true) nofun
    | rfl

theorem finished_of_resting {q : Entry.DropPc} (h : (Pc.drop g q : Pc R K E).resting = true) :
    q = .finished := by
  cases q with
  | cancel q => cases q <;> exact absurd (h : false = true) nofun
  | fields => exact absurd (h : false = true) nofun
  | finished => rfl

section

variable [DecidableEq R] [DecidableEq K] {s s' : State R K E}
  {ok : State R K E → Action R K E → Prop}

/-- In a settled state the entry of a generation whose task has not ended is still held: its
destructor would have cancelled the token. -/
theorem Settled.strong_pos (h : Settled s) (hr : Reach (step cfg) ok State.new s)
    (hg : g < s.mem.nextGen) (he : (s.mem.task g).hasEnded = false) : 0 < s.mem.strong g := by
  refine Nat.pos_of_ne_zero fun h0 => ?_
  obtain ⟨t, q, ht⟩ := exists_destructor hr hg h0
  have hrest := h.resting t
  have hfallen := fallen_of_reach hr t
  rw [ht] at hrest hfallen
  cases finished_of_resting hrest
  rcases hfallen with hc | hc
  · exact nomatch he.symm.trans (h.ended g hg hc)
  · exact nomatch he.symm.trans (late_of_reach hr g hc)

/-- An entry that is still held has a holder, and if that is part of a generation, the entry of that
generation is still held. -/
theorem Settled.holder (h : Settled s) (hr : Reach (step cfg) ok State.new s)
    (hg : 0 < s.mem.strong g) :
    (.outside, g) ∈ s.mem.refs ∨ ∃ x, 0 < s.mem.strong x ∧ s.mem.Owns x g := by
  have hheld : s.total (Pc.held g) = 0 := by
    refine Nat.eq_zero_of_not_pos fun hpos => ?_
    obtain ⟨t, -, ht⟩ := Pool.exists_of_total_pos hpos
    exact ht.ne' (held_of_resting (h.resting t))
  have hlease : 0 < s.mem.leases g := by
    have := (counted_of_reach hr).strong g
    omega
  obtain ⟨⟨holder, x⟩, hmem, rfl⟩ := List.mem_map.mp (List.count_pos_iff.mp hlease)
  have halive := h.released holder x hmem
  cases holder with
  | outside => exact .inl hmem
  | interface a => exact .inr ⟨a, halive, .inl hmem⟩
  | task a => exact .inr ⟨a, h.strong_pos hr halive.1 halive.2, .inr hmem⟩

/-- In a settled state with an acyclic lease graph every entry that is held is reached from
outside. -/
theorem Settled.reached (h : Settled s) (hr : Reach (step cfg) ok State.new s)
    (hac : Acyclic s.mem.Owns) (hg : 0 < s.mem.strong g) : ∃ r, s.mem.Reaches r g := by
  have hfin : {x | 0 < s.mem.strong x}.Finite := by
    refine (Set.finite_lt_nat s.mem.nextGen).subset fun x hx => ?_
    exact Nat.lt_of_not_le fun hle => Nat.ne_of_gt hx ((counted_of_reach hr).fresh x hle)
  exact hac.exists_root hfin (fun x hx => h.holder hr hx) hg

/-- **Dependency reclamation.** In a settled state of an accepting domain, with an acyclic lease
graph, every generation whose task has not ended is reached by a chain of leases from a reference
held outside. So once references have only been dropped, among them the last one held outside to
`d`, and the domain has settled, every generation that was reached only from `d` has ended. -/
theorem dependencies_are_reclaimed (hs : Reach (step cfg) ok State.new s)
    (hr : Reach (step cfg) ok s s') (h : Settled s') :
    (Acyclic s'.mem.Owns → ∀ g, g < s'.mem.nextGen → (s'.mem.task g).hasEnded = false →
      ∃ r, s'.mem.Reaches r g) ∧
    (Acyclic s.mem.Owns → s'.mem.refs ⊆ s.mem.refs → ∀ d, (.outside, d) ∉ s'.mem.refs →
      ∀ g, g < s'.mem.nextGen → (∀ r, s.mem.Reaches r g → r = d) →
        (s'.mem.task g).hasEnded = true) := by
  have hs' := hs.trans hr
  have reached (hac : Acyclic s'.mem.Owns) (g : GenId) (hg : g < s'.mem.nextGen)
      (he : (s'.mem.task g).hasEnded = false) : ∃ r, s'.mem.Reaches r g :=
    h.reached hs' hac (h.strong_pos hs' hg he)
  refine ⟨reached, fun hac hsub d hd g hg honly => ?_⟩
  have howns (a b : GenId) (hab : s'.mem.Owns a b) : s.mem.Owns a b :=
    hab.imp (fun h => hsub h) (fun h => hsub h)
  by_contra he
  obtain ⟨r, hout, hchain⟩ := reached (hac.mono howns) g hg (Bool.eq_false_of_not_eq_true he)
  have hrd := honly r ⟨hsub hout, ReflTransGen.mono howns r g hchain⟩
  exact hd (hrd ▸ hout)

/-- A settled state is recognised by its threads, its references and its generations, of which there
are finitely many. -/
theorem settled_of_forall (hr : Reach (step cfg) ok State.new s)
    (h : s.mem.Accepting ∧ (∀ t, t < s.size → (s.pc t).resting = true) ∧
      (∀ e ∈ s.mem.refs, s.mem.Alive e.1) ∧
      ∀ g, g < s.mem.nextGen → s.mem.Cancelled g → (s.mem.task g).hasEnded = true) :
    Settled s := by
  refine ⟨h.1, fun t => ?_, fun holder g hg => h.2.2.1 _ hg, h.2.2.2⟩
  rcases Nat.lt_or_ge t s.size with ht | ht
  · exact h.2.1 t ht
  · rw [fresh_of_reach hr t ht]
    trivial

end

/-- The task of one generation owns the only reference to a second one. -/
def leasedRun : List (Action Unit Unit Unit) :=
  .call (.acquire ⟨.spawn, ⟨(), ()⟩⟩) :: List.replicate 14 (.run 0 .go) ++
    .call (.acquire ⟨.spawn, ⟨(), ()⟩⟩) :: List.replicate 14 (.run 2 .go) ++
    [.move .outside (.task 0) 1]

/-- The reference to the first one is dropped, and both come to their ends. -/
def reclaimedRun : List (Action Unit Unit Unit) :=
  .release .outside 0 :: List.replicate 4 (.run 4 .go) ++ [.poll 0, .gate 0, .finish 0 .ok] ++
    List.replicate 10 (.run 1 .go) ++
    .release (.task 0) 1 :: List.replicate 4 (.run 5 .go) ++ [.poll 1, .gate 1, .finish 1 .ok] ++
    List.replicate 10 (.run 3 .go)

theorem reclaimedRun_ended :
    (∃ r, ((afterwards false leasedRun).get (by decide +kernel)).mem.Reaches r 1) ∧
      ((((exec (step (.single false)) ((afterwards false leasedRun).get (by decide +kernel))
        reclaimedRun).get (by decide +kernel)).mem.task 1).hasEnded = true) := by
  have hs := reach_afterwards (fun _ => True) (fun _ _ => trivial)
    (by decide +kernel : (afterwards false leasedRun).isSome = true)
  have hr : Reach (step (.single false)) (fun _ _ => True)
      ((afterwards false leasedRun).get (by decide +kernel))
      ((exec (step (.single false)) ((afterwards false leasedRun).get (by decide +kernel))
        reclaimedRun).get (by decide +kernel)) :=
    reach_exec (P := fun _ => True) (fun _ _ h => h) (fun _ _ => trivial) _
  have hrefs : ((afterwards false leasedRun).get (by decide +kernel)).mem.refs =
      [(.task 0, 1), (.outside, 0)] := by decide +kernel
  have hac : Acyclic ((afterwards false leasedRun).get (by decide +kernel)).mem.Owns := by
    refine acyclic_of_lt fun a b hab => ?_
    rw [Memory.Owns, hrefs] at hab
    obtain ⟨rfl, rfl⟩ : a = 0 ∧ b = 1 := by simpa using hab
    exact Nat.zero_lt_one
  refine ⟨?_, ?_⟩
  · exact (dependencies_are_reclaimed hs .refl (settled_of_forall hs (by decide +kernel))).1 hac 1
      (by decide +kernel) (by decide +kernel)
  · refine (dependencies_are_reclaimed hs hr (settled_of_forall (hs.trans hr)
      (by decide +kernel))).2 hac (by decide +kernel) 0 (by decide +kernel) 1 (by decide +kernel) ?_
    rintro r ⟨hout, -⟩
    rw [hrefs] at hout
    simpa using hout

end Resourcery
