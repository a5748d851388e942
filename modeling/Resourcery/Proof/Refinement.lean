import Resourcery.Proof.Lookup
import Resourcery.Proof.Outcomes
import Resourcery.Spec.Directory

/-!
# The domain refines the directory

`Memory.directory` is the directory a memory stands for. Every step of the system leaves it alone or
makes one of its moves, so that what is true of all directories is true of all domains.
-/

namespace Resourcery

open Interleaving Function Transition ResourceContext Relation

variable {R K E : Type}

def DomainPhase.stage : DomainPhase → Stage
  | .running => .accepting
  | .shuttingDown => .closing
  | .terminated => .closed

/-- The directory a memory stands for. What is retired is dead for good; when the domain stops
accepting everything active goes at once. -/
def Memory.directory (m : Memory R K E) : Directory (Ident R K) GenId (ResourceOutcome E) where
  stage := m.phase.stage
  starting := {i | m.lookup i = .starting}
  active := {e | m.lookup e.1 = .active e.2}
  supervised := {g | ∃ id, (id, g) ∈ m.tasks}
  retired := {g | g < m.nextGen ∧ m.Dead g}
  outcome := {e | m.outcome e.1 = some e.2}

/-- `m'` stands for the directory of `m`, or for one that is a move away. -/
def Memory.Follows (m m' : Memory R K E) : Prop :=
  m'.directory = m.directory ∨ m.directory.Next m'.directory

variable {cfg : Config R K} {t : Tid} {m m' : Memory R K E} {p : Pc R K E} {g : GenId}
  {i : Ident R K}

theorem Memory.Follows.of_next {d : Directory (Ident R K) GenId (ResourceOutcome E)}
    (he : m'.directory = d) (h : m.directory.Next d) : m.Follows m' :=
  .inr (he ▸ h)

theorem stage_eq_accepting {ph : DomainPhase} : ph.stage = .accepting ↔ ph = .running := by
  cases ph <;> simp [DomainPhase.stage]

/-! ## Lookups -/

theorem lookup_eq_starting : m.lookup i = .starting ↔
    ∃ n generation, m.Attached i n ∧ m.state i n = .starting generation := by
  refine ⟨fun h => ?_, fun ⟨n, generation, ha, hst⟩ => lookup_of_starting ha hst⟩
  unfold Memory.lookup at h
  split at h
  · cases h
  · rename_i n hn
    split at h
    · rename_i generation hst
      exact ⟨n, generation, hn, hst⟩
    · split_ifs at h

/-- Only slots decide which identities are under construction. -/
theorem starting_of_slots (he : m'.entries = m.entries) (hs : m'.state = m.state) :
    m'.directory.starting = m.directory.starting := by
  ext i
  show m'.lookup i = .starting ↔ m.lookup i = .starting
  simp only [lookup_eq_starting, Memory.Attached, he, hs]

theorem lookup_eq_active_iff : m.lookup i = .active g ↔
    ∃ n generation, m.Attached i n ∧ m.state i n = .active generation g ∧ m.Acquirable g :=
  ⟨lookup_eq_active, fun ⟨_, _, ha, hst, hg⟩ => lookup_of_acquirable ha hst hg⟩

/-- A lookup is what it was when the slot is and the generation in it can still be acquired if it
could. -/
theorem Memory.SameSlot.lookup (h : m.SameSlot i m') (ha : ∀ n generation g,
    m.state i n = .active generation g → (m'.Acquirable g ↔ m.Acquirable g)) :
    m'.lookup i = m.lookup i := by
  cases hn : m.entries i with
  | none => rw [lookup_of_none hn, lookup_of_none (h.1.trans hn)]
  | some n =>
    have hn' : m'.Attached i n := h.1.trans hn
    cases hst : m.state i n with
    | starting generation =>
      rw [lookup_of_starting hn hst, lookup_of_starting hn' ((h.2 n hn).trans hst)]
    | active generation g =>
      rw [lookup_of_active hn hst, lookup_of_active hn' ((h.2 n hn).trans hst)]
      simp only [ha n generation g hst]

/-! ## Steps that change one identity -/

section

variable {f : Ident R K → ResourceStatus} [DecidableEq R] [DecidableEq K]

theorem starting_update {st : ResourceStatus} (hst : st ≠ .starting) :
    {j | update f i st j = .starting} = {j | f j = .starting} \ {i} := by
  ext j
  by_cases hj : j = i
  · subst hj
    simp [hst]
  · simp [hj]

theorem starting_update_starting :
    {j | update f i .starting j = .starting} = insert i {j | f j = .starting} := by
  ext j
  by_cases hj : j = i
  · subst hj
    simp
  · simp [hj]

theorem active_update {st : ResourceStatus} (hst : ∀ g, st ≠ .active g)
    (hi : ∀ g, f i ≠ .active g) :
    {e : Ident R K × GenId | update f i st e.1 = .active e.2} = {e | f e.1 = .active e.2} := by
  ext ⟨j, x⟩
  by_cases hj : j = i
  · subst hj
    simp [hst, hi]
  · simp [hj]

theorem active_update_active (hi : ∀ g, f i ≠ .active g) :
    {e : Ident R K × GenId | update f i (.active g) e.1 = .active e.2} =
      insert (i, g) {e | f e.1 = .active e.2} := by
  ext ⟨j, x⟩
  by_cases hj : j = i
  · subst hj
    simp [hi, eq_comm]
  · simp [hj]

/-- The directory in which `i` is found to be `st`. -/
def Memory.shows (m : Memory R K E) (i : Ident R K) (st : ResourceStatus) :
    Directory (Ident R K) GenId (ResourceOutcome E) :=
  { m.directory with
    starting := {j | update m.lookup i st j = .starting}
    active := {e | update m.lookup i st e.1 = .active e.2} }

/-- A step that only changes what is found of `i`. -/
theorem follows_of_turns (hm' : m'.directory = m.shows i (m'.lookup i))
    (hacq : ∀ x, m'.Acquirable x → m.Acquirable x)
    (hsingle : ∀ x, m'.lookup i = .active x → ∀ j, m.lookup j = .active x → j = i)
    (h : Turns (m.lookup i) (m'.lookup i)) : m.Follows m' := by
  unfold Memory.Follows
  rw [hm', Memory.shows]
  generalize hst : m.lookup i = st at h
  generalize hst' : m'.lookup i = st' at h
  cases h with
  | refl =>
    left
    rw [← hst, update_eq_self]
    rfl
  | claim =>
    right
    rw [starting_update_starting, active_update (fun _ => by simp) (by simp [hst])]
    exact .claim i (by simp [Memory.directory, hst]) fun g => by simp [Memory.directory, hst]
  | fail =>
    right
    rw [starting_update (by simp), active_update (fun _ => by simp) (by simp [hst])]
    exact .fail i hst
  | activate x =>
    obtain ⟨-, -, -, -, hx⟩ := lookup_eq_active hst'
    have hx := hacq x hx
    right
    rw [starting_update (by simp), active_update_active (by simp [hst])]
    refine .activate i x (stage_eq_accepting.mpr hx.2) hst (fun hr => hx.1.not_dead hr.2) ?_
    intro j hj
    obtain rfl := hsingle x hst' j hj
    exact ResourceStatus.noConfusion (hst.symm.trans hj)

/-- A step that changes no other slots than those of `j`. -/
theorem follows_of_slots {j : Ident R K}
    (hm' : m'.directory = { m.directory with
      starting := m'.directory.starting
      active := m'.directory.active })
    (hacq : ∀ x, m'.Acquirable x ↔ m.Acquirable x) (hother : ∀ i, i ≠ j → m.SameSlot i m')
    (hsingle : ∀ x, m'.lookup j = .active x → ∀ i, m.lookup i = .active x → i = j)
    (h : m.SameSlot j m' ∨ Turns (m.lookup j) (m'.lookup j)) : m.Follows m' := by
  have hlookup : m'.lookup = update m.lookup j (m'.lookup j) := by
    funext i
    by_cases hi : i = j
    · rw [hi, update_self]
    · rw [update_of_ne hi]
      exact (hother i hi).lookup fun _ _ x _ => hacq x
  refine follows_of_turns ?_ (fun x => (hacq x).mp) hsingle (h.elim (fun h => ?_) id)
  · rw [hm', Memory.shows, ← hlookup]
    rfl
  · rw [h.lookup fun _ _ x _ => hacq x]
    exact .refl _

end

/-- A generation is found under the identity it was created for. -/
theorem eq_of_lookup {j : Ident R K} (hm : Sites m) (hg : m.ident g = some j)
    (hi : m.lookup i = .active g) : i = j := by
  obtain ⟨n, generation, -, hst, -⟩ := lookup_eq_active hi
  exact Option.some.inj ((hm.active _ _ _ _ hst).1.2.1.symm.trans hg)

/-! ## Steps that change the phase -/

/-- A domain that stops accepting has nothing left that can be acquired. -/
theorem follows_close (h : m.Accepting) : m.Follows { m with phase := .shuttingDown } := by
  have hactive : ({ m with phase := .shuttingDown } : Memory R K E).directory.active = ∅ := by
    refine Set.eq_empty_of_forall_notMem fun e he => ?_
    obtain ⟨-, -, -, -, hacq⟩ := lookup_eq_active he
    exact DomainPhase.noConfusion hacq.2
  have he : ({ m with phase := .shuttingDown } : Memory R K E).directory = { m.directory with
      stage := .closing
      active := ∅ } := Directory.ext rfl (starting_of_slots rfl rfl) hactive rfl rfl rfl
  exact .of_next he (.close (stage_eq_accepting.mpr h))

theorem follows_terminate (h : ¬ m.Accepting) (ht : m.tasks = []) :
    m.Follows { m with phase := .terminated } := by
  have hlookup : ({ m with phase := .terminated } : Memory R K E).lookup = m.lookup := by
    funext i
    refine Memory.SameSlot.lookup (.of_eq rfl rfl) fun _ _ x _ => iff_of_false ?_ fun hx => h hx.2
    exact fun hx => DomainPhase.noConfusion hx.2
  have he : ({ m with phase := .terminated } : Memory R K E).directory =
      { m.directory with stage := .closed } := by
    unfold Memory.directory
    rw [hlookup]
    rfl
  cases hp : m.phase with
  | running => exact absurd hp h
  | shuttingDown =>
    refine .of_next he (.terminate (congrArg DomainPhase.stage hp) ?_)
    refine Set.eq_empty_of_forall_notMem fun g hg => ?_
    obtain ⟨id, hid⟩ := hg
    rw [ht] at hid
    cases hid
  | terminated =>
    left
    rw [he]
    exact Directory.ext (congrArg DomainPhase.stage hp).symm rfl rfl rfl rfl rfl

/-! ## Steps that change one generation -/

/-- Only the entry and the control of `g` change. -/
structure Memory.Spares (m : Memory R K E) (g : GenId) (m' : Memory R K E) : Prop where
  phase : m'.phase = m.phase
  tasks : m'.tasks = m.tasks
  entries : m'.entries = m.entries
  state : m'.state = m.state
  nextGen : m'.nextGen = m.nextGen
  outcome : m'.outcome = m.outcome
  strong : ∀ x, x ≠ g → m'.strong x = m.strong x
  control : ∀ x, x ≠ g → m'.control x = m.control x

namespace Memory.Spares

variable {x : GenId}

theorem dead (h : m.Spares g m') (hx : x ≠ g) : m'.Dead x ↔ m.Dead x := by
  unfold Memory.Dead
  rw [h.strong x hx, h.control x hx]

theorem acquirable (h : m.Spares g m') (hx : x ≠ g) : m'.Acquirable x ↔ m.Acquirable x := by
  unfold Memory.Acquirable Memory.Live Memory.Accepting
  rw [h.strong x hx, h.control x hx, h.phase]

theorem sameSlot (h : m.Spares g m') : m.SameSlot i m' := .of_eq h.entries h.state

theorem supervised (h : m.Spares g m') : m'.directory.supervised = m.directory.supervised := by
  unfold Memory.directory
  rw [h.tasks]

theorem published (h : m.Spares g m') : m'.directory.outcome = m.directory.outcome := by
  unfold Memory.directory
  rw [h.outcome]

/-- A generation that can be acquired no longer is retired, if it has not been before. -/
theorem follows_retired (h : m.Spares g m') (hlt : g < m.nextGen) (hd : m'.Dead g) :
    m.Follows m' := by
  have hactive : m'.directory.active = {e ∈ m.directory.active | e.2 ≠ g} := by
    ext ⟨i, x⟩
    show m'.lookup i = .active x ↔ m.lookup i = .active x ∧ x ≠ g
    by_cases hx : x = g
    · subst hx
      refine ⟨fun hl => ?_, fun hl => absurd rfl hl.2⟩
      obtain ⟨-, -, -, -, hacq⟩ := lookup_eq_active hl
      exact absurd hd hacq.1.not_dead
    · simp only [lookup_eq_active_iff, Memory.Attached, h.entries, h.state, h.acquirable hx]
      exact (and_iff_left hx).symm
  have hretired : m'.directory.retired = insert g m.directory.retired := by
    ext x
    show (x < m'.nextGen ∧ m'.Dead x) ↔ (x = g ∨ x < m.nextGen ∧ m.Dead x)
    rw [h.nextGen]
    by_cases hx : x = g
    · subst hx
      exact iff_of_true ⟨hlt, hd⟩ (.inl rfl)
    · rw [h.dead hx, or_iff_right hx]
  have he : m'.directory = { m.directory with
      active := {e ∈ m.directory.active | e.2 ≠ g}
      retired := insert g m.directory.retired } :=
    Directory.ext (congrArg DomainPhase.stage h.phase) (starting_of_slots h.entries h.state) hactive
      h.supervised hretired h.published
  by_cases hr : g ∈ m.directory.retired
  · left
    rw [he, Set.insert_eq_of_mem hr]
    refine Directory.ext rfl rfl (Set.sep_eq_self_iff_mem_true.mpr fun e hl heq => ?_) rfl rfl rfl
    obtain ⟨-, -, -, -, hacq⟩ := lookup_eq_active hl
    exact hacq.1.not_dead (heq ▸ hr.2)
  · exact .of_next he (.retire g hr)

/-- A generation that is as dead and as live as it was. -/
theorem follows_same (h : m.Spares g m') (hm : Sites m) (hd : m'.Dead g ↔ m.Dead g)
    (hl : m.taskId g ≠ none → (m'.Live g ↔ m.Live g)) : m.Follows m' := by
  have hlookup : m'.lookup = m.lookup := by
    funext i
    refine h.sameSlot.lookup fun n generation x hst => ?_
    by_cases hx : x = g
    · subst hx
      unfold Memory.Acquirable Memory.Accepting
      rw [hl (hm.active _ _ _ _ hst).2, h.phase]
    · exact h.acquirable hx
  have hdead : m'.Dead = m.Dead := by
    funext x
    by_cases hx : x = g
    · subst hx
      exact propext hd
    · exact propext (h.dead hx)
  left
  unfold Memory.directory
  rw [h.phase, h.tasks, h.nextGen, h.outcome, hlookup, hdead]

/-- A generation whose entry is as dead as it was. -/
theorem follows_kept (h : m.Spares g m') (hm : Sites m) (hs : m'.strong g = 0 ↔ m.strong g = 0)
    (hc : m'.control g = m.control g) : m.Follows m' := by
  refine h.follows_same hm ?_ fun _ => ?_
  · unfold Memory.Dead
    rw [hs, hc]
  · unfold Memory.Live
    rw [Nat.pos_iff_ne_zero, Nat.pos_iff_ne_zero, ne_eq, ne_eq, hs, hc]

end Memory.Spares

theorem spares_strong (g : GenId) (n : ℕ) (refs : List (Holder × GenId)) : m.Spares g { m with
    strong := update m.strong g n
    refs := refs } :=
  ⟨rfl, rfl, rfl, rfl, rfl, rfl, fun _ hx => update_of_ne hx _ _, fun _ _ => rfl⟩

/-- The count of an entry changes, but does not come to zero or from it. -/
theorem follows_count {n : ℕ} {refs : List (Holder × GenId)} (hm : Sites m)
    (hn : n = 0 ↔ m.strong g = 0) : m.Follows { m with
      strong := update m.strong g n
      refs := refs } := by
  refine (spares_strong g n refs).follows_kept hm ?_ rfl
  show update m.strong g n g = 0 ↔ _
  rw [update_self, hn]

/-- The last reference to an entry is dropped. -/
theorem follows_last {refs : List (Holder × GenId)}
    (hzero : ∀ g, m.nextGen ≤ g → m.strong g = 0) (h1 : m.strong g = 1) : m.Follows { m with
      strong := update m.strong g 0
      refs := refs } := by
  refine (spares_strong g 0 refs).follows_retired ?_ (.inl (update_self ..))
  by_contra hn
  cases h1.symm.trans (hzero g (Nat.le_of_not_lt hn))

/-! ## Instructions -/

/-- An instruction terminates a domain that does not accept, registers a generation that is not
dead, activates the control of one that is not registered, publishes the outcome of one whose
control has finished, and puts into a slot what was created for its identity. -/
def Instr.Fits {α : Type} (m : Memory R K E) : Instr R K E α → Prop
  | .storeTerminated _ => ¬ m.Accepting
  | .insertTask g _ => ¬ m.Dead g
  | .exchangeActive g _ => m.taskId g = none
  | .send g _ _ => m.control g = .finished
  | .storeState i _ st _ => ∀ generation g, st = .active generation g → m.ident g = some i
  | _ => True

theorem fits_of_known (hk : p.Known m) (hst : p.Starts m) (hag : p.Agrees m) (hj : p.Joined m)
    (hheld : ∀ x, p.held x ≤ m.strong x) : p.code.Fits m := by
  cases p using Pc.points
  case acquire_claim_takeover => exact fun _ _ h => by cases h
  case acquire_settle_storeActive =>
    intro generation g h
    cases h
    exact hk.1.2.1
  case acquire_create_register_activate => exact hk.2
  case acquire_create_register_insert q site g =>
    have hpos : 0 < one g g := by
      rw [one_self]
      exact Nat.one_pos
    have hlive : m.Live g := ⟨Nat.lt_of_lt_of_le hpos (hheld g), hst⟩
    exact hlive.not_dead
  case supervise_publish => exact hj.2
  all_goals first
    | exact trivial
    | exact hag.1.2.1

/-! ## Steps that change the table -/

theorem follows_register (h : m.Accepting) (hd : ¬ m.Dead g) : m.Follows { m with
    nextTask := m.nextTask + 1
    tasks := (m.nextTask, g) :: m.tasks
    taskId := update m.taskId g (some m.nextTask) } := by
  refine .of_next ?_ (.register g (stage_eq_accepting.mpr h) fun hr => hd hr.2)
  refine Directory.ext rfl rfl rfl ?_ rfl rfl
  ext x
  show (∃ id, (id, x) ∈ (m.nextTask, g) :: m.tasks) ↔ x = g ∨ ∃ id, (id, x) ∈ m.tasks
  simp [exists_or]

theorem follows_release {id : ℕ} (htab : Tables m) :
    m.Follows { m with tasks := m.tasks.filter (·.1 ≠ id) } := by
  by_cases hid : ∃ g, (id, g) ∈ m.tasks
  · obtain ⟨g, hg⟩ := hid
    refine .of_next ?_ (.release g ⟨id, hg⟩)
    refine Directory.ext rfl rfl rfl ?_ rfl rfl
    ext x
    constructor
    · rintro ⟨k, hk⟩
      obtain ⟨hk, hne⟩ := List.mem_filter.mp hk
      refine ⟨⟨k, hk⟩, ?_⟩
      rintro rfl
      have he : k = id := Option.some.inj ((htab.entry _ hk).symm.trans (htab.entry _ hg))
      exact absurd he (of_decide_eq_true hne)
    · rintro ⟨⟨k, hk⟩, hne⟩
      refine ⟨k, List.mem_filter.mpr ⟨hk, decide_eq_true fun he => hne ?_⟩⟩
      exact htab.inj x g id (he ▸ htab.entry _ hk) (htab.entry _ hg)
  · have he : m.tasks.filter (·.1 ≠ id) = m.tasks :=
      List.filter_eq_self.mpr fun e he => decide_eq_true fun hk => hid ⟨e.2, hk ▸ he⟩
    left
    rw [he]

/-! ## Creation and publication -/

theorem follows_new {site : Option Site} (hm : Sites m) (htab : Tables m) : m.Follows { m with
    nextGen := m.nextGen + 1
    ident := update m.ident m.nextGen (some i)
    site := update m.site m.nextGen site
    strong := update m.strong m.nextGen 1
    receivers := update m.receivers m.nextGen 1 } := by
  have hne {x : GenId} (hx : x < m.nextGen) : update m.strong m.nextGen 1 x = m.strong x :=
    update_of_ne (Nat.ne_of_lt hx) _ _
  left
  refine Directory.ext rfl (starting_of_slots rfl rfl) ?_ rfl ?_ rfl
  · ext ⟨j, x⟩
    show Memory.lookup _ j = .active x ↔ m.lookup j = .active x
    refine iff_of_eq (congrArg (· = _) ?_)
    refine Memory.SameSlot.lookup (.of_eq rfl rfl) fun n generation y hst => ?_
    have hlt := (hm.active _ _ _ _ hst).1.1
    unfold Memory.Acquirable Memory.Live
    simp only [hne hlt]
    exact Iff.rfl
  · ext x
    show (x < m.nextGen + 1 ∧ (update m.strong m.nextGen 1 x = 0 ∨ 2 ≤ (m.control x).rank)) ↔
      (x < m.nextGen ∧ (m.strong x = 0 ∨ 2 ≤ (m.control x).rank))
    rcases Nat.lt_trichotomy x m.nextGen with hx | rfl | hx
    · rw [hne hx]
      exact and_congr_left fun _ => iff_of_true (Nat.lt_succ_of_lt hx) hx
    · rw [update_self, (htab.fresh _ (Nat.le_refl _)).2.1]
      exact iff_of_false (fun h => by simp [Phase.rank] at h) fun h => absurd h.1 (Nat.lt_irrefl _)
    · refine iff_of_false (fun h => ?_) fun h => ?_
      · exact absurd h.1 (Nat.not_lt.mpr hx)
      · exact absurd h.1 (Nat.lt_asymm hx)

theorem follows_publish {o : ResourceOutcome E} (hlt : g < m.nextGen) (hn : m.outcome g = none)
    (hc : m.control g = .finished) : m.Follows { m with
      outcome := update m.outcome g (some o)
      version := update m.version g (m.version g + 1) } := by
  have hdead : m.Dead g := .inr (by rw [hc]; decide)
  have hfirst (o : ResourceOutcome E) : m.outcome g ≠ some o := by
    rw [hn]
    exact fun h => by cases h
  refine .of_next ?_ (.publish g o ⟨hlt, hdead⟩ hfirst)
  refine Directory.ext rfl rfl rfl rfl rfl ?_
  ext ⟨x, o'⟩
  show update m.outcome g (some o) x = some o' ↔ (x, o') = (g, o) ∨ m.outcome x = some o'
  by_cases hx : x = g
  · subst hx
    simp [hn, eq_comm]
  · simp [hx]

variable [DecidableEq R] [DecidableEq K]

/-- **Every instruction makes at most one move.** -/
theorem wp_follows {α : Type} {ins : Instr R K E α} (hev : ins.Evolves m) (hfit : ins.Fits m)
    (htouch : ins.Touching m) (hterm : ins.Terminates m) (hsend : ins.Sends m) (hm : Sites m)
    (htab : Tables m) (hzero : ∀ g, m.nextGen ≤ g → m.strong g = 0) :
    ins.wp cfg t m fun m' _ _ => m.Follows m' := by
  have hcontrol (g : GenId) (ph : Phase) :
      m.Spares g { m with control := update m.control g ph } :=
    ⟨rfl, rfl, rfl, rfl, rfl, rfl, fun _ _ => rfl, fun _ hx => update_of_ne hx _ _⟩
  -- what becomes of the identity whose slot is written to; the others keep their slots
  have hslot (j : Ident R K) : ins.wp cfg t m fun m' _ _ =>
      m.SameSlot j m' ∨ Turns (m.lookup j) (m'.lookup j) := wp_lookup hev j
  cases ins
  case exchangeShuttingDown k => exact ⟨follows_close, fun _ => .inl rfl⟩
  case storeTerminated k => exact follows_terminate hfit hterm
  case insertTask g k => exact follows_register hterm hfit
  case removeTask id k => exact follows_release htab
  case insertSlot j k =>
    refine follows_of_slots rfl (fun _ => Iff.rfl) (fun i hi => ?_) (fun x hx => ?_) (hslot j)
    · exact ⟨update_of_ne hi _ _, fun n _ => if_neg fun h => hi h.1⟩
    · obtain ⟨n, generation, ha, hst, -⟩ := lookup_eq_active hx
      have ha : update m.entries j (some (m.nextSlot j)) j = some n := ha
      rw [update_self] at ha
      obtain rfl := Option.some.inj ha
      cases (update₂_self ..).symm.trans hst
  case removeEntry j k =>
    refine follows_of_slots rfl (fun _ => Iff.rfl) (fun i hi => ?_) (fun x hx => ?_) (hslot j)
    · exact ⟨update_of_ne hi _ _, fun _ _ => rfl⟩
    · obtain ⟨n, -, ha, -⟩ := lookup_eq_active hx
      have ha : update m.entries j none j = some n := ha
      rw [update_self] at ha
      cases ha
  case storeState j n st k =>
    refine follows_of_slots rfl (fun _ => Iff.rfl) (fun i hi => ?_) (fun x hx => ?_) (hslot j)
    · exact ⟨rfl, fun n _ => if_neg fun h => hi h.1⟩
    · obtain ⟨n', generation, -, hst, -⟩ := lookup_eq_active hx
      refine fun i => eq_of_lookup hm ?_
      by_cases hn : n' = n
      · subst hn
        exact hfit generation x ((update₂_self ..).symm.trans hst)
      · have hold : m.state j n' = .active generation x :=
          (if_neg fun h : j = j ∧ n' = n => hn h.2).symm.trans hst
        exact (hm.active _ _ _ _ hold).1.2.1
  case exchangeActive g k =>
    refine ⟨fun hst => ?_, fun _ => .inl rfl⟩
    refine (hcontrol g .active).follows_same hm ?_ fun hreg => absurd hfit hreg
    show _ ∨ 2 ≤ (update m.control g .active g).rank ↔ _ ∨ 2 ≤ (m.control g).rank
    rw [update_self, hst]
    exact or_congr Iff.rfl (by decide)
  case exchangeCancelling g current k =>
    have hdead : 2 ≤ (update m.control g .cancelling g).rank := by
      rw [update_self]
      decide
    refine ⟨fun _ => (hcontrol g _).follows_retired htouch (.inr hdead), ?_, ?_, ?_, ?_⟩
    all_goals exact fun _ => .inl rfl
  case storeFinished g k =>
    have hdead : 2 ≤ (update m.control g .finished g).rank := by
      rw [update_self]
      decide
    exact (hcontrol g _).follows_retired htouch (.inr hdead)
  case newEntry i site k => exact follows_new hm htab
  case upgrade g k =>
    refine ⟨fun hpos => follows_count hm ?_, fun _ => .inl rfl⟩
    omega
  case dropStrong g destructor k =>
    refine ⟨fun h1 => follows_last hzero h1, fun h1 => follows_count hm ?_⟩
    omega
  case send g o k => exact ⟨fun _ => .inl rfl, fun _ => follows_publish hsend.1 hsend.2.1 hfit⟩
  all_goals
    repeat' first
      | exact trivial
      | exact .inl rfl
      | apply And.intro
      | intro _

variable {s s' : State R K E} {a : Action R K E} {ok : State R K E → Action R K E → Prop}

/-- **Every step makes at most one move.** -/
theorem follows_step (hs : Reach (step cfg) ok State.new s) (h : step cfg s a = some s') :
    s.mem.Follows s'.mem := by
  have hm := (sited_of_reach hs).sites
  obtain ⟨htab, hk⟩ := known_of_reach hs
  have hc := counted_of_reach hs
  refine mem_step (fun m => s.mem.Follows m) h (.inl rfl) ?_ ?_ ?_ ?_
  · rintro t p - rfl hready
    have hag := (agrees_of_reach hs).2 t
    have hfit : (s.pc t).code.Fits s.mem := fits_of_known (hk t) (starts_of_reach hs t) hag
      (joined_of_reach hs t) (hc.held_le hready.1)
    have hsend := sends_of_known (hk t) ((channels_of_reach hs).2 t)
    exact wp_follows (evolves_of_reach hs t) hfit (touching_of_known htab (hk t))
      (terminates_of_agrees hag) hsend hm htab hc.fresh
  · rintro c m p - hcall
    cases hcall <;> exact .inl rfl
  · exact fun _ _ _ => .inl rfl
  · rintro m c hh
    cases hh
    case clone h' g hmem halive | release h' g hmem hother =>
      have hpos := hc.pos_of_mem hmem
      exact follows_count hm (by omega)
    case releaseLast h' g hmem hlast => exact follows_last hc.fresh hlast
    all_goals exact .inl rfl

omit [DecidableEq R] [DecidableEq K] in
theorem directory_new : (State.new : State R K E).mem.directory = .new := by
  refine Directory.ext rfl ?_ ?_ ?_ ?_ ?_
  · exact Set.eq_empty_of_forall_notMem fun i hi => by cases hi
  · exact Set.eq_empty_of_forall_notMem fun e he => by cases he
  · exact Set.eq_empty_of_forall_notMem fun g ⟨id, hg⟩ => by cases hg
  · exact Set.eq_empty_of_forall_notMem fun g hg => absurd hg.1 (Nat.not_lt_zero g)
  · exact Set.eq_empty_of_forall_notMem fun e he => by cases he

/-- Every run is a run of the directory. -/
theorem run_of_reach (hs : Reach (step cfg) ok State.new s) (hr : Reach (step cfg) ok s s') :
    s.mem.directory.Run s'.mem.directory := by
  have hstep (v : State R K E) (a : Action R K E) (v' : State R K E)
      (d : Directory (Ident R K) GenId (ResourceOutcome E)) (hv : Reach (step cfg) ok s v)
      (hd : v.mem.directory = d) (_ : ok v a) (h : step cfg v a = some v') :
      ∃ d', d.Run d' ∧ v'.mem.directory = d' := by
    refine ⟨_, ?_, rfl⟩
    rw [← hd]
    rcases follows_step (hs.trans hv) h with he | hnext
    · rw [he]
    · exact .single hnext
  obtain ⟨d, hrun, hd⟩ := hr.simulate (fun v d => v.mem.directory = d) rfl hstep
  rw [hd]
  exact hrun

/-- **The domain refines the directory.** Every step leaves the directory alone or makes one move of
it. So what the states of a run stand for is what a directory shows in a run of its own, and always
well formed. Of `Wf`, only `exclusive`, `ended` and `idle` say something of the run: the other fields
hold of the directory of any memory, in which an identity has one status, a generation one outcome,
and a generation that is found can be acquired. Hence a generation that has been found, and later is
not, is never found again, and one with an outcome keeps it and is never found. -/
theorem domain_refines_directory {v : State R K E}
    (hs : Reach (step cfg) (fun _ _ => True) State.new s)
    (hr : Reach (step cfg) (fun _ _ => True) s s') (hv : Reach (step cfg) (fun _ _ => True) s' v) :
    (∀ a w, step cfg v a = some w →
      w.mem.directory = v.mem.directory ∨ v.mem.directory.Next w.mem.directory) ∧
    (Directory.new.Run s.mem.directory ∧ s.mem.directory.Run s'.mem.directory ∧
      s'.mem.directory.Run v.mem.directory) ∧
    v.mem.directory.Wf ∧
    (∀ i g, s.mem.lookup i = .active g → s'.mem.lookup i ≠ .active g →
      ∀ j, v.mem.lookup j ≠ .active g) ∧
    ∀ g o, s.mem.outcome g = some o →
      v.mem.outcome g = some o ∧ ∀ i, v.mem.lookup i ≠ .active g := by
  have h0 : Directory.new.Run s.mem.directory := by
    rw [← directory_new]
    exact run_of_reach .refl hs
  have h1 := run_of_reach hs hr
  have h2 := run_of_reach (hs.trans hr) hv
  have h12 : s.mem.directory.Run v.mem.directory := h1.trans h2
  have hwf : s.mem.directory.Wf := h0.wf Directory.wf_new
  have hwf' : v.mem.directory.Wf := h12.wf hwf
  refine ⟨fun a w h => follows_step ((hs.trans hr).trans hv) h, ⟨h0, h1, h2⟩, hwf',
    fun i g hg hn j => h1.not_active_again h2 hwf hg hn, fun g o ho => ?_⟩
  have ho' : (g, o) ∈ v.mem.directory.outcome := h12.outcome ho
  exact ⟨ho', fun i => hwf'.not_active (.inl (hwf'.ended _ ho'))⟩

/-- Its only lease is dropped, and another caller is granted the claim. -/
def retiredRun : List (Action Unit Unit Unit) :=
  .release .outside 0 :: List.replicate 4 (.run 2 .go) ++
    .call (.acquire ⟨.spawn, ⟨(), ()⟩⟩) :: List.replicate 6 (.run 3 .go)

/-- The other caller creates a generation. -/
def successorRun : List (Action Unit Unit Unit) := List.replicate 23 (.run 3 .go)

theorem successorRun_not_found :
    ((exec (step (.single true)) ((exec (step (.single true))
      ((afterwards true foundRun).get (by decide +kernel)) retiredRun).get (by decide +kernel))
      successorRun).get (by decide +kernel)).mem.lookup ⟨(), ()⟩ ≠ .active 0 := by
  have hs := reach_afterwards (fun _ => True) (fun _ _ => trivial)
    (by decide +kernel : (afterwards true foundRun).isSome = true)
  have hr : Reach (step (.single true)) (fun _ _ => True)
      ((afterwards true foundRun).get (by decide +kernel))
      ((exec (step (.single true)) ((afterwards true foundRun).get (by decide +kernel))
        retiredRun).get (by decide +kernel)) :=
    reach_exec (P := fun _ => True) (fun _ _ h => h) (fun _ _ => trivial) _
  exact (domain_refines_directory hs hr
    (reach_exec (P := fun _ => True) (fun _ _ h => h) (fun _ _ => trivial) _)).2.2.2.1 ⟨(), ()⟩ 0
    (by decide +kernel) (by decide +kernel) ⟨(), ()⟩

end Resourcery
