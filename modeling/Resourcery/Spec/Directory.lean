import Mathlib.Data.Set.Insert
import Mathlib.Logic.Relation

/-!
# What a domain is for

`Directory` is a domain as its users know it: which identities are being constructed, which
generation an identity has, what is supervised, what is over and how it ended. `Next` lists the
moves it can make, and `Wf` what holds of it after any of them. Identities, generations and outcomes
are arbitrary, and nothing is said of slots, locks, counts or threads.
-/

namespace Resourcery

open Relation

/-- How far the shutdown of a domain has come. -/
inductive Stage
  | accepting | closing | closed

/-- A domain as its users know it. -/
@[ext]
structure Directory (I G O : Type*) where
  stage : Stage
  /-- The identities under construction. -/
  starting : Set I
  /-- The identities that can be acquired, each with its generation. -/
  active : Set (I × G)
  /-- The generations that keep the domain from terminating. -/
  supervised : Set G
  /-- The generations that can never be acquired again. -/
  retired : Set G
  /-- The outcomes that have been published. -/
  outcome : Set (G × O)

variable {I G O : Type*} {d d' d'' : Directory I G O} {i j : I} {g : G}

namespace Directory

/-- A new directory. -/
def new : Directory I G O where
  stage := .accepting
  starting := ∅
  active := ∅
  supervised := ∅
  retired := ∅
  outcome := ∅

/-! ## Moves -/

/-- The moves of a directory. -/
inductive Next (d : Directory I G O) : Directory I G O → Prop
  | claim (i : I) (free : i ∉ d.starting) (vacant : ∀ g, (i, g) ∉ d.active) :
      Next d { d with starting := insert i d.starting }
  | fail (i : I) (claimed : i ∈ d.starting) : Next d { d with starting := d.starting \ {i} }
  | activate (i : I) (g : G) (accepting : d.stage = .accepting) (claimed : i ∈ d.starting)
      (live : g ∉ d.retired) (single : ∀ j, (j, g) ∉ d.active) :
      Next d { d with
        starting := d.starting \ {i}
        active := insert (i, g) d.active }
  | register (g : G) (accepting : d.stage = .accepting) (live : g ∉ d.retired) :
      Next d { d with supervised := insert g d.supervised }
  | retire (g : G) (live : g ∉ d.retired) :
      Next d { d with
        active := {e ∈ d.active | e.2 ≠ g}
        retired := insert g d.retired }
  | publish (g : G) (o : O) (ended : g ∈ d.retired) (first : ∀ o, (g, o) ∉ d.outcome) :
      Next d { d with outcome := insert (g, o) d.outcome }
  | release (g : G) (supervised : g ∈ d.supervised) :
      Next d { d with supervised := d.supervised \ {g} }
  | close (accepting : d.stage = .accepting) :
      Next d { d with
        stage := .closing
        active := ∅ }
  | terminate (closing : d.stage = .closing) (idle : d.supervised = ∅) :
      Next d { d with stage := .closed }

/-- Finitely many moves. -/
abbrev Run : Directory I G O → Directory I G O → Prop := ReflTransGen Next

/-! ## What holds after any moves -/

/-- A directory is well formed. -/
structure Wf (d : Directory I G O) : Prop where
  single : ∀ i g g', (i, g) ∈ d.active → (i, g') ∈ d.active → g = g'
  exclusive : ∀ i j g, (i, g) ∈ d.active → (j, g) ∈ d.active → i = j
  settled : ∀ i g, (i, g) ∈ d.active → i ∉ d.starting
  accepting : ∀ e ∈ d.active, d.stage = .accepting
  live : ∀ e ∈ d.active, e.2 ∉ d.retired
  ended : ∀ e ∈ d.outcome, e.1 ∈ d.retired
  unique : ∀ g o o', (g, o) ∈ d.outcome → (g, o') ∈ d.outcome → o = o'
  idle : d.stage = .closed → d.supervised = ∅

theorem wf_new : (new : Directory I G O).Wf where
  single _ _ _ h := h.elim
  exclusive _ _ _ h := h.elim
  settled _ _ h := h.elim
  accepting _ h := h.elim
  live _ h := h.elim
  ended _ h := h.elim
  unique _ _ _ h := h.elim
  idle _ := rfl

/-- Every move keeps a directory well formed. -/
theorem Next.wf (h : Next d d') (hd : d.Wf) : d'.Wf := by
  cases h with
  | claim i free vacant =>
    refine { hd with settled := fun j g hg => ?_ }
    rintro (rfl | hj)
    · exact vacant g hg
    · exact hd.settled j g hg hj
  | fail i claimed => exact { hd with settled := fun j g hg hj => hd.settled j g hg hj.1 }
  | activate i g accepting claimed live single =>
    refine { hd with
      single := ?_, exclusive := ?_, settled := ?_, accepting := fun _ _ => accepting, live := ?_ }
    · rintro j x x' (hx | hx) (hx' | hx')
      · cases hx
        cases hx'
        rfl
      · cases hx
        exact absurd claimed (hd.settled i x' hx')
      · cases hx'
        exact absurd claimed (hd.settled i x hx)
      · exact hd.single j x x' hx hx'
    · rintro j j' x (hx | hx) (hx' | hx')
      · cases hx
        cases hx'
        rfl
      · cases hx
        exact absurd hx' (single j')
      · cases hx'
        exact absurd hx (single j)
      · exact hd.exclusive j j' x hx hx'
    · rintro j x (hx | hx) hj
      · cases hx
        exact hj.2 rfl
      · exact hd.settled j x hx hj.1
    · rintro e (rfl | he)
      · exact live
      · exact hd.live e he
  | register g accepting live =>
    refine { hd with idle := fun hc => ?_ }
    exact absurd (accepting.symm.trans hc) (by simp)
  | retire g live =>
    refine { hd with
      single := ?_, exclusive := ?_, settled := ?_, accepting := ?_, live := ?_, ended := ?_ }
    · exact fun j x x' hx hx' => hd.single j x x' hx.1 hx'.1
    · exact fun j j' x hx hx' => hd.exclusive j j' x hx.1 hx'.1
    · exact fun j x hx => hd.settled j x hx.1
    · exact fun e he => hd.accepting e he.1
    · rintro e he (hg | hr)
      · exact he.2 hg
      · exact hd.live e he.1 hr
    · exact fun e he => .inr (hd.ended e he)
  | publish g o ended first =>
    refine { hd with ended := ?_, unique := ?_ }
    · rintro e (rfl | he)
      · exact ended
      · exact hd.ended e he
    · rintro x y y' (hy | hy) (hy' | hy')
      · cases hy
        cases hy'
        rfl
      · cases hy
        exact absurd hy' (first y')
      · cases hy'
        exact absurd hy (first y)
      · exact hd.unique x y y' hy hy'
  | release g supervised =>
    refine { hd with idle := fun hc => ?_ }
    show d.supervised \ {g} = ∅
    rw [hd.idle hc]
    exact Set.eq_empty_of_forall_notMem fun _ hx => hx.1
  | close accepting =>
    refine { hd with
      single := ?_, exclusive := ?_, settled := ?_, accepting := ?_, live := ?_, idle := ?_ }
    all_goals intros; contradiction
  | terminate closing idle =>
    refine { hd with accepting := fun e he => ?_, idle := fun _ => idle }
    exact absurd ((hd.accepting e he).symm.trans closing) (by simp)

theorem Run.wf (h : Run d d') (hd : d.Wf) : d'.Wf := by
  induction h with
  | refl => exact hd
  | tail _ h ih => exact h.wf ih

/-! ## What stays -/

/-- The generation `g` cannot be acquired, now or later. -/
def Gone (d : Directory I G O) (g : G) : Prop := g ∈ d.retired ∨ d.stage ≠ .accepting

theorem Wf.not_active (hd : d.Wf) (h : d.Gone g) : (i, g) ∉ d.active :=
  fun hg => h.elim (hd.live _ hg) fun hs => hs (hd.accepting _ hg)

theorem Next.gone (h : Next d d') (hg : d.Gone g) : d'.Gone g := by
  cases h with
  | retire => exact hg.imp_left .inr
  | close accepting => exact .inr (by simp)
  | terminate closing idle => exact .inr (by simp)
  | _ => exact hg

/-- What is not gone stays active. -/
theorem Next.active (h : Next d d') (hg : (i, g) ∈ d.active) : (i, g) ∈ d'.active ∨ d'.Gone g := by
  cases h with
  | activate => exact .inl (.inr hg)
  | retire x live =>
    by_cases hx : g = x
    · exact .inr (.inl (.inl hx))
    · exact .inl ⟨hg, hx⟩
  | close accepting => exact .inr (.inr (by simp))
  | _ => exact .inl hg

theorem Next.outcome (h : Next d d') {e : G × O} (he : e ∈ d.outcome) : e ∈ d'.outcome := by
  cases h with
  | publish => exact .inr he
  | _ => exact he

theorem Run.gone (h : Run d d') (hg : d.Gone g) : d'.Gone g := by
  induction h with
  | refl => exact hg
  | tail _ h ih => exact h.gone ih

theorem Run.active (h : Run d d') (hg : (i, g) ∈ d.active) : (i, g) ∈ d'.active ∨ d'.Gone g := by
  induction h with
  | refl => exact .inl hg
  | tail _ h ih => exact ih.elim h.active fun ho => .inr (h.gone ho)

/-- An outcome that has been published stays. -/
theorem Run.outcome (h : Run d d') {e : G × O} (he : e ∈ d.outcome) : e ∈ d'.outcome := by
  induction h with
  | refl => exact he
  | tail _ h ih => exact h.outcome ih

/-- **A generation that has been active and is no longer** is not active again. -/
theorem Run.not_active_again (h : Run d d') (h' : Run d' d'') (hd : d.Wf) (hg : (i, g) ∈ d.active)
    (hn : (i, g) ∉ d'.active) : (j, g) ∉ d''.active := by
  have hgone : d'.Gone g := (h.active hg).resolve_left hn
  exact (h'.wf (h.wf hd)).not_active (h'.gone hgone)

end Directory

end Resourcery
