import Resourcery.Logic.Acquisitions
import Resourcery.Proof.Drain
import Resourcery.Proof.Index

/-!
# An empty registry

What the registries and the supervisor table of a domain hold, they hold for an acquisition or a
supervising future that has not ended: an attached slot for its owner or for the generation that is
active in it, an entry of an index or of the table for its generation. When tasks end, all of these
can end, and then nothing is left.
-/

namespace Resourcery

open Interleaving Function Transition ResourceContext

variable {R K E : Type}

/-- An acquisition or a supervising future that has not ended. -/
def Pc.underway (p : Pc R K E) : Bool := (p.isAcquiring || p.isSupervising) && !p.code.halts

/-- The registries and the supervisor table hold nothing. -/
structure Memory.Vacated (m : Memory R K E) : Prop where
  entries : ∀ i, m.entries i = none
  live : ∀ r, m.live r = []
  tasks : m.tasks = []

variable {cfg : Config R K} {t u : Tid} {m m' : Memory R K E} {p p' : Pc R K E} {g : GenId}
  {s s' : State R K E} {a : Action R K E}

theorem awaits_of_halts {α : Type} {ins : Instr R K E α} (h : ins.halts = true) :
    ins.Awaits m := by
  cases ins
  case halt => trivial
  all_goals cases h

theorem halts_of_indebted (h : p.indebted = true) : p.code.halts = false := by
  refine Bool.eq_false_iff.mpr fun hh => ?_
  exact nomatch h.symm.trans (indebted_of_awaits Memory.new (awaits_of_halts hh))

theorem underway_of_indebted (h : p.indebted = true) (ha : p.isAcquiring = true) :
    p.underway = true := by
  rw [Pc.underway, halts_of_indebted h, ha]
  rfl

theorem acquires_of_notifies {x : Ident R K × ℕ} (h : p.notifies? = some x) :
    p.isAcquiring = true := by
  cases p with
  | acquire => rfl
  | _ => cases h

theorem ended_of_halts {i : Ident R K} {id : ℕ} {site : Option Site} {q : SupervisePc E}
    (h : (Pc.supervise i g id site q).code.halts = true) : ∃ exit, q = .ended exit := by
  cases site, q using SupervisePc.points
  case ended => exact ⟨_, rfl⟩
  all_goals cases h

variable [DecidableEq R] [DecidableEq K]

/-! ## What is held is held for somebody -/

section

variable {ok : State R K E → Action R K E → Prop}
  (hok : ∀ s a, ok s a → a.KeysSound ∧ a.KeepsSupervisor) (hs : Reach (step cfg) ok State.new s)
  (hover : ∀ u, (s.pc u).underway = false)

include hok hs hover

/-- When nothing is under way, the supervising future of every registered generation has run to its
end. -/
theorem over_of_registered {id : ℕ} (hg : s.mem.taskId g = some id) :
    ∃ u i site, s.pc u = .supervise i g id site (.ended .ran) := by
  obtain ⟨u, ⟨q, site, p, hp, -⟩ | ⟨i, site, p, hp⟩⟩ := in_charge hs hg
  · have := hover u
    rw [hp, underway_of_indebted indebted_of_create rfl] at this
    cases this
  · have hu := hover u
    have hran := ran_of_reach (fun s a ha => (hok s a ha).2) hs u
    rw [hp] at hu hran
    have hh : (Pc.supervise i g id site p).code.halts = true := by
      cases hh : (Pc.supervise i g id site p).code.halts with
      | true => rfl
      | false =>
        rw [Pc.underway, hh] at hu
        cases hu
    obtain ⟨exit, rfl⟩ := ended_of_halts hh
    obtain rfl : exit = .ran := hran
    exact ⟨u, i, site, hp⟩

/-- **When nothing is under way** nothing is held. -/
theorem vacated_of_over : s.mem.Vacated := by
  have hkeys : ∀ s a, ok s a → a.KeysSound := fun s a ha => (hok s a ha).1
  constructor
  · intro i
    by_contra hne
    obtain ⟨n, hn⟩ := Option.ne_none_iff_exists'.mp hne
    cases hst : s.mem.state i n with
    | starting generation =>
      obtain ⟨u, hu⟩ := owner_of_starting hkeys hs hn hst
      have hu := notifies_of_owner hu
      have := underway_of_indebted (indebted_of_notifies hu) (acquires_of_notifies hu)
      rw [hover u] at this
      cases this
    | active generation g =>
      obtain ⟨hmade, hg⟩ := (sited_of_reach hs).sites.active i n generation g hst
      obtain ⟨id, hid⟩ := Option.ne_none_iff_exists'.mp hg
      obtain ⟨u, j, site, hp⟩ := over_of_registered hok hs hover hid
      have hgone := gone_of_reach hkeys hs u
      have hk := (known_of_reach hs).2 u
      rw [hp] at hgone hk
      obtain rfl : i = j := Option.some.inj (hmade.2.1.symm.trans hk.1.2.1)
      obtain rfl : some ⟨n, generation⟩ = site := hmade.2.2.symm.trans hk.1.2.2
      have hleft : s.mem.Left i ⟨n, generation⟩ := hgone rfl
      exact hleft.not_attached ⟨hn, by rw [hst]; rfl⟩
  · intro r
    refine List.eq_nil_iff_forall_not_mem.mpr fun e he => ?_
    obtain ⟨u, i, site, hp⟩ := over_of_registered hok hs hover (indexed_of_reach hs r e he).1
    have hidx := indexedAt_of_reach hs u
    rw [hp] at hidx
    exact hidx r e he rfl
  · refine List.eq_nil_iff_forall_not_mem.mpr fun e he => ?_
    obtain ⟨u, i, site, hp⟩ := over_of_registered hok hs hover ((known_of_reach hs).1.entry e he)
    have hkeeps : ∀ s a, ok s a → a.KeepsSupervisor := fun s a ha => (hok s a ha).2
    have hul := unlisted_of_reach (keeps_polled hkeeps) hs u
    rw [hp] at hul
    exact hul rfl e he rfl

end

/-! ## Everything under way can come to its end -/

/-- The acquisitions have ended. -/
def State.Answered (s : State R K E) : Prop :=
  ∀ u, (s.pc u).isAcquiring = true → (s.pc u).code.halts = true

omit [DecidableEq R] [DecidableEq K] in
theorem code_of_halts (h : p.code.halts = true) : p.code = .halt := by
  cases hc : p.code with
  | halt => rfl
  | _ =>
    rw [hc] at h
    cases h

omit [DecidableEq R] [DecidableEq K] in
theorem underway_of_free (h : p.isAcquiring = false) (h' : p.isSupervising = false) :
    p.underway = false := by
  rw [Pc.underway, h, h']
  rfl

/-- When all acquisitions have ended no step starts anything new. -/
theorem answered_run (h : p.isAcquiring = true → p.code.halts = true) :
    p.code.wp cfg t m fun _ p' c =>
      (p'.isAcquiring = false ∧ (p.underway = false → p'.underway = false)) ∧
        ForSome (fun c => c.isAcquiring = false ∧ c.underway = false) c := by
  cases hh : p.code.halts with
  | true =>
    rw [code_of_halts hh]
    trivial
  | false =>
    have ha : p.isAcquiring = false := Bool.eq_false_iff.mpr fun ha => by
      rw [h ha] at hh
      cases hh
    cases hsup : p.isSupervising with
    | true =>
      unfold Pc.isSupervising at hsup
      split at hsup
      · refine ((wp_not_acquiring ha).and (wp_childless _ _ _ _ _)).mono fun m' p' c hp => ?_
        refine ⟨⟨hp.1.1, fun hu => ?_⟩, by rw [hp.2]; trivial⟩
        rw [Pc.underway, hh] at hu
        cases hu
      · cases hsup
    | false =>
      refine ((wp_not_acquiring ha).and (wp_supervises hsup)).mono fun m' p' c hp => ?_
      refine ⟨⟨hp.1.1, fun _ => underway_of_free hp.1.1 hp.2.1⟩, ?_⟩
      cases c with
      | none => trivial
      | some c =>
        rcases hp.2.2 with ⟨g, rfl⟩ | ⟨q, site, g, id, rfl, -⟩
        · exact ⟨rfl, rfl⟩
        · cases ha

theorem answered_step (h : step cfg s a = some s') (ha : a.prompt = true) (hs : s.Answered)
    (u : Tid) : ((s'.pc u).isAcquiring = true → (s'.pc u).code.halts = true) ∧
      ((s.pc u).underway = false → (s'.pc u).underway = false) := by
  refine forall_pc_step (fun _ u p => (p.isAcquiring = true → p.code.halts = true) ∧
    ((s.pc u).underway = false → p.underway = false)) h (fun u => ⟨hs u, id⟩)
    (fun u _ => ⟨hs u, id⟩) ?_ ?_ ?_ ?_ u
  · rintro t p - rfl - -
    refine (answered_run (hs t)).mono fun m p' c hp => ?_
    refine ⟨⟨(fun e => nomatch hp.1.1.symm.trans e), hp.1.2⟩, ?_⟩
    cases c with
    | none => trivial
    | some c => exact ⟨(fun e => nomatch hp.2.1.symm.trans e), fun _ => hp.2.2⟩
  · rintro t p p' hj - - -
    cases hj <;> cases ha
  · rintro c m p rfl -
    cases ha
  · rintro m c hh
    cases hh
    cases ha

theorem answered_of_prompts (hr : Prompts cfg s s') (hs : s.Answered) :
    s'.Answered ∧ ∀ u, (s.pc u).underway = false → (s'.pc u).underway = false := by
  refine hr.invariant (fun v => v.Answered ∧ ∀ u, (s.pc u).underway = false →
    (v.pc u).underway = false) ⟨hs, fun _ => id⟩ ?_
  rintro v a v' ⟨hv, hsame⟩ ha h
  have hstep := answered_step h ha hv
  exact ⟨fun u => (hstep u).1, fun u hu => (hstep u).2 (hsame u hu)⟩

section

variable (hs : Reach (step cfg) Orderly State.new s)

include hs

/-- All acquisitions can end. -/
theorem answers : ∃ s', Prompts cfg s s' ∧ s'.Answered := by
  obtain ⟨v, hv, hfree, hpaid⟩ := pays (hs.mono fun _ _ h => h.1)
  have hsv : Reach (step cfg) (fun _ a => a.KeysSound) State.new v :=
    keysSound_of_moves (hs.mono fun _ _ h => h.1) hv
  have hrun (w : State R K E) (u : Tid) (hw : Reach (step cfg) (fun _ a => a.KeysSound) State.new w)
      (hI : w.Unlocked ∧ ∀ u, (w.pc u).indebted = false) (_ : u < w.size)
      (_ : ((w.pc u).isAcquiring && !(w.pc u).code.halts) = true) :
      ∃ w', Runs cfg u w w' ∧ (w'.Unlocked ∧ ∀ u, (w'.pc u).indebted = false) ∧
        ((w'.pc u).isAcquiring && !(w'.pc u).code.halts) = false := by
    obtain ⟨w', hr, hfree, hpaid, hrest⟩ := rests_of_paid hw hI.1 hI.2 u
    refine ⟨w', hr, ⟨hfree, hpaid⟩, ?_⟩
    rcases hrest.cases with hh | ⟨⟨seen, hq⟩, -⟩ | ⟨g, seen, hp, -⟩ | ⟨i, g, id, site, hp⟩
    · rw [hh, Bool.not_true, Bool.and_false]
    · unfold Pc.awaitsQuiescence at hq
      split at hq
      · rename_i heq
        rw [heq]
        rfl
      · rename_i heq
        rw [heq]
        rfl
      · cases hq
    · rw [hp]
      rfl
    · rw [hp]
      rfl
  have hby (p : Pc R K E) (hp : p.bystands = true) : (p.isAcquiring && !p.code.halts) = false := by
    unfold Pc.bystands at hp
    split at hp
    · rfl
    · rfl
    · cases hp
  obtain ⟨s', hr, -, hG⟩ := runs_out hsv (f := fun p => p.isAcquiring && !p.code.halts)
    (I := fun v => v.Unlocked ∧ ∀ u, (v.pc u).indebted = false) rfl hby hrun ⟨hfree, hpaid⟩
  have hr : Moves cfg s s' := hv.trans hr
  refine ⟨s', hr.mono fun _ _ => Action.prompt_of_calm, fun u hu => ?_⟩
  have := hG u
  rw [hu, Bool.true_and, Bool.not_eq_eq_eq_not, Bool.not_false] at this
  exact this

/-- Everything under way can come to its end. -/
theorem finishes : ∃ s', Prompts cfg s s' ∧ ∀ u, (s'.pc u).underway = false := by
  obtain ⟨v, hv, hans⟩ := answers hs
  have hstep (w : State R K E) (hI : Prompts cfg v w ∧ w.Answered)
      (hG : ¬ ∀ u, (w.pc u).underway = false) : ∃ w', Prompts cfg w w' ∧
        (Prompts cfg v w' ∧ w'.Answered) ∧
          w'.total (fun p => p.underway.toNat) < w.total fun p => p.underway.toNat := by
    have hw := orderly_of_prompts (orderly_of_prompts hs hv) hI.1
    obtain ⟨u, hu⟩ := not_forall.mp hG
    have hu := eq_true_of_ne_false hu
    obtain ⟨w', hr, hh⟩ := comes_to_end hw u
    have hu' : (w'.pc u).underway = false := by
      rw [Pc.underway, hh, Bool.not_true, Bool.and_false]
    obtain ⟨hans', hsame⟩ := answered_of_prompts hr hI.2
    refine ⟨w', hr, ⟨hI.1.trans hr, hans'⟩, ?_⟩
    have hlt : u < w.size :=
      lt_size_of_ne_idle (fresh_of_reach hw) fun e => by rw [e] at hu; cases hu
    have hle (x : Tid) : (w'.pc x).underway.toNat ≤ (w.pc x).underway.toNat := by
      cases hx : (w.pc x).underway with
      | false => rw [hsame x hx]
      | true => exact Bool.toNat_le _
    have hnew (x : Tid) (hx : w.size ≤ x) : (w'.pc x).underway.toNat = 0 := by
      rw [hsame x (by rw [fresh_of_reach hw x hx]; rfl)]
      rfl
    have htotal := Pool.total_add_le (f := fun p => p.underway.toNat) (size_of_reach hr) hlt
      (fun x _ _ => hle x) hnew
    rw [hu, hu', Bool.toNat_true, Bool.toNat_false] at htotal
    exact htotal
  obtain ⟨s', -, ⟨hr, -⟩, hG⟩ := Reach.descend
    (fun v : State R K E => v.total fun p => p.underway.toNat) hstep ⟨.refl, hans⟩
  exact ⟨s', hv.trans hr, hG⟩

end

omit [DecidableEq R] [DecidableEq K] in
theorem keeps_of_prompt (h : a.prompt = true) : a.KeysSound ∧ a.KeepsSupervisor := by
  cases a with
  | run t ch => exact ⟨Action.keysSound_of_calm h, rfl⟩
  | dropSupervisor | unwind => cases h
  | _ => exact ⟨rfl, rfl⟩

/-- A canonical generation that has been established. -/
def establishedRun : List (Action Unit Unit Unit) :=
  .call (.acquire ⟨.getOrSpawn, ⟨(), ()⟩⟩) :: List.replicate 26 (.run 0 .go)

end Resourcery
