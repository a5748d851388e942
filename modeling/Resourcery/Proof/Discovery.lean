import Resourcery.Logic.Acquisitions
import Resourcery.Logic.Threads
import Resourcery.Proof.Lookup

/-!
# Discovery

`get`, `status`, a claim and `WeakResourceRef::upgrade` look at an identity in several steps while
others change it. Each acts as if it had looked once, at some instant between its call and its
return: what it answers is what `Memory.lookup` found at that instant.
-/

namespace Resourcery

open Interleaving Function Transition ResourceContext

variable {R K E : Type}

/-! ## What a call has seen -/

/-- Thread `u` is in a call that has not returned. -/
def InCall (u : Tid) (s : State R K E) : Prop := (s.pc u).code ≠ .halt

/-- At an instant of the call of thread `u` the memory was as `P` says. -/
abbrev Was (vs : List (State R K E)) (u : Tid) (P : Memory R K E → Prop) : Prop :=
  During vs (InCall u) fun s => P s.mem

/-- An active slot `n` of `i` points to `g`. -/
def Memory.Points (m : Memory R K E) (i : Ident R K) (n : ℕ) (g : GenId) : Prop :=
  n < m.nextSlot i ∧ ∃ generation, m.state i n = .active generation g

/-- What `try_acquire` has seen of `g` before its last loads: it has been begun, and at an instant
when the domain accepted it was leased, while `P` held. -/
def Domain.TryAcquirePc.Saw (m : Memory R K E) (W : (Memory R K E → Prop) → Prop) (g : GenId)
    (P : Memory R K E → Prop) : TryAcquirePc → Prop
  | .accepting | .active => True
  | .acceptingAgain => m.control g ≠ .starting
  | .activeAgain => W fun m => P m ∧ m.control g ≠ .starting ∧ 0 < m.strong g ∧ m.Accepting

/-- What `get` or `status` has seen of `i`. The slot it looks at is attached, or the identity has
been absent since. -/
def ResourceContext.StatusPc.Saw (m : Memory R K E) (W : (Memory R K E → Prop) → Prop)
    (i : Ident R K) : StatusPc → Prop
  | .lockSlot n => m.Attached i n ∨ W (fun m => m.lookup i = .absent) ∧
    ∀ generation, m.state i n = .starting generation → W fun m => m.lookup i = .starting
  | .upgrade n _ => m.Attached i n ∨ W fun m => m.lookup i = .absent
  | .tryAcquire n g p => (m.Attached i n ∨ W fun m => m.lookup i = .absent) ∧
    p.Saw m W g fun m => m.Points i n g
  | .dropEntry _ _ => W fun m => m.lookup i = .absent
  | .dropState _ st | .returned st => W fun m => m.lookup i = st
  | .deliver g => W fun m => m.lookup i = .active g
  | .slot | .panicked => True

/-- What a claim has seen of `i`, as it answers. -/
def Registry.RegistryClaim.Saw (W : (Memory R K E → Prop) → Prop) (i : Ident R K) :
    RegistryClaim → Prop
  | .active g => W fun m => m.lookup i = .active g
  | .owner _ _ => W fun m => m.lookup i = .absent
  | .wait _ _ => W fun m => m.lookup i = .starting
  | .occupied => W fun m => m.lookup i ≠ .absent
  | .shuttingDown => True

def Registry.ClaimPc.Saw (m : Memory R K E) (W : (Memory R K E → Prop) → Prop) (i : Ident R K) :
    ClaimPc → Prop
  | .tryAcquire n _ g p => p.Saw m W g fun m => m.Points i n g
  | .dropResource .. | .recheck .. | .takeover .. => W fun m => m.lookup i = .absent
  | .dropState _ claim | .dropEntry claim => claim.Saw W i
  | .dropFound g => W fun m => m.lookup i = .active g
  | _ => True

/-- The canonical identity `i` is absent. -/
def Memory.Vacant (m : Memory R K E) (canonical : Bool) (i : Ident R K) : Prop :=
  canonical = true → m.lookup i = .absent

/-- What an acquisition has seen of `i` when it has this result; `M` is what it has made. -/
def Acquired.Saw (W : (Memory R K E → Prop) → Prop) (M : GenId → Prop) (canonical : Bool)
    (i : Ident R K) : Acquired → Prop
  | .ok g => W (fun m => m.lookup i = .active g) ∨
    M g ∧ W fun m => m.Vacant canonical i ∧ m.nextGen ≤ g
  | .err .occupied => W (fun m => m.Accepting) ∧ W fun m => m.lookup i ≠ .absent
  | .err .constructionPanicked => W fun m => m.Vacant canonical i
  | .err .shuttingDown | .dropped | .panicked => True

/-- What an acquisition has seen of `i`. A generation it has made did not exist yet when it saw that
the identity was absent. -/
def ResourceContext.AcquirePc.Saw (m : Memory R K E) (W : (Memory R K E → Prop) → Prop)
    (M : GenId → Prop) (canonical : Bool) (i : Ident R K) : AcquirePc → Prop
  | .accepting => True
  | .claim p => W (fun m => m.Accepting) ∧ p.Saw m W i
  | .listener _ _ => W fun m => m.Accepting
  | .cloneKey _ _ | .cloneCleanupKey _ _ => W fun m => m.Vacant canonical i
  | .create _ p => (∀ g ∈ p.gen?, M g) ∧
    W fun m => m.Vacant canonical i ∧ ∀ g ∈ p.gen?, m.nextGen ≤ g
  | .settle _ _ g _ | .start g => M g ∧ W fun m => m.Vacant canonical i ∧ m.nextGen ≤ g
  | .guard _ _ result _ | .returned result => result.Saw W M canonical i
  | .deliver g => Acquired.Saw W M canonical i (.ok g)

/-- What `WeakResourceRef::upgrade` has seen of `g`. -/
def WeakResourceRef.UpgradePc.Saw (m : Memory R K E) (W : (Memory R K E → Prop) → Prop)
    (g : GenId) : UpgradePc → Prop
  | .tryAcquire p => p.Saw m W g fun _ => True
  | .deliver => W fun m => m.Acquirable g
  | .returned result => ∀ x ∈ result, x = g ∧ W fun m => m.Acquirable g
  | _ => True

/-- What a thread has seen. -/
def Pc.Saw (cfg : Config R K) (m : Memory R K E) (W : (Memory R K E → Prop) → Prop)
    (M : GenId → Prop) : Pc R K E → Prop
  | .discover _ i p => p.Saw m W i
  | .acquire q p => p.Saw m W M (cfg.canonical q.ident.ty) q.ident
  | .upgrade g p => p.Saw m W g
  | _ => True

/-- What `W` says has been so: `m` is among the memories seen, and all of them come before it. -/
structure Recalls (m : Memory R K E) (W : (Memory R K E → Prop) → Prop) : Prop where
  now : ∀ P, P m → W P
  later : ∀ P Q, W P → (∀ m₀, m₀.Begun → Grows m₀ m → P m₀ → Q m₀) → W Q

variable {cfg : Config R K} {t u : Tid} {m m' : Memory R K E} {p : Pc R K E} {g : GenId}
  {i : Ident R K} {n generation : ℕ} {W W' : (Memory R K E → Prop) → Prop} {M M' : GenId → Prop}

section

variable (hW : ∀ P, W P → W' P)

include hW

theorem Domain.TryAcquirePc.Saw.mono {P : Memory R K E → Prop} {p : TryAcquirePc}
    (h : p.Saw m W g P) (hg : Grows m m') : p.Saw m' W' g P := by
  cases p
  case acceptingAgain => exact not_starting_mono hg h
  case activeAgain => exact hW _ h
  all_goals trivial

theorem Registry.RegistryClaim.Saw.mono {c : RegistryClaim} (h : c.Saw W i) : c.Saw W' i := by
  cases c
  case shuttingDown => trivial
  all_goals exact hW _ h

theorem Acquired.Saw.mono {c : Bool} {r : Acquired} (h : r.Saw W M c i) (hM : ∀ g, M g → M' g) :
    r.Saw W' M' c i := by
  rcases r with g | (_ | _ | _) | _ | _
  · exact h.imp (hW _) (.imp (hM g) (hW _))
  · exact h.imp (hW _) (hW _)
  · trivial
  · exact hW _ h
  all_goals trivial

theorem Registry.ClaimPc.Saw.mono {p : ClaimPc} (h : p.Saw m W i) (hg : Grows m m') :
    p.Saw m' W' i := by
  cases p
  case tryAcquire => exact Domain.TryAcquirePc.Saw.mono hW h hg
  case dropState | dropEntry => exact Registry.RegistryClaim.Saw.mono hW h
  case dropResource | recheck | takeover | dropFound => exact hW _ h
  all_goals trivial

theorem ResourceContext.AcquirePc.Saw.mono {c : Bool} {p : AcquirePc} (h : p.Saw m W M c i)
    (hM : ∀ g, M g → M' g) (hg : Grows m m') : p.Saw m' W' M' c i := by
  cases p
  case claim => exact ⟨hW _ h.1, Registry.ClaimPc.Saw.mono hW h.2 hg⟩
  case create => exact ⟨fun g hgen => hM g (h.1 g hgen), hW _ h.2⟩
  case settle | start => exact ⟨hM _ h.1, hW _ h.2⟩
  case guard | returned => exact Acquired.Saw.mono hW h hM
  case deliver g => exact h.imp (hW _) (.imp (hM g) (hW _))
  case accepting => trivial
  all_goals exact hW _ h

theorem WeakResourceRef.UpgradePc.Saw.mono {p : UpgradePc} (h : p.Saw m W g) (hg : Grows m m') :
    p.Saw m' W' g := by
  cases p
  case tryAcquire => exact Domain.TryAcquirePc.Saw.mono hW h hg
  case deliver => exact hW _ h
  case returned => exact fun x hx => ⟨(h x hx).1, hW _ (h x hx).2⟩
  all_goals trivial

theorem ResourceContext.StatusPc.Saw.mono {p : StatusPc} (h : p.Saw m W i) : p.Saw m W' i := by
  cases p
  case lockSlot => exact h.imp_right fun h => ⟨hW _ h.1, fun x hst => hW _ (h.2 x hst)⟩
  case upgrade => exact h.imp_right (hW _)
  case tryAcquire =>
    exact ⟨h.1.imp_right (hW _), Domain.TryAcquirePc.Saw.mono hW h.2 (.refl _)⟩
  case dropEntry | dropState | deliver | returned => exact hW _ h
  all_goals trivial

theorem Pc.Saw.mono (h : p.Saw cfg m W M) (hM : ∀ g, M g → M' g) : p.Saw cfg m W' M' := by
  cases p
  case discover => exact StatusPc.Saw.mono hW h
  case acquire => exact AcquirePc.Saw.mono hW h hM (.refl _)
  case upgrade => exact WeakResourceRef.UpgradePc.Saw.mono hW h (.refl _)
  all_goals trivial

end

/-! ## The calls, step by step -/

/-- A slot that is attached was so before. -/
theorem Memory.Points.attached {m₀ : Memory R K E} (h : m₀.Points i n g) (hg : Grows m₀ m)
    (ha : m.Attached i n) : m₀.Attached i n :=
  hg.attached i n h.1 ha

theorem lookup_of_points (h : m.Points i n g) (ha : m.Attached i n) :
    m.lookup i = if m.Acquirable g then .active g else .absent := by
  obtain ⟨-, generation, hst⟩ := h
  exact lookup_of_active ha hst

/-- An attached slot that points to a generation that is not acquirable is found absent, one that
is not attached has been so already. -/
theorem Recalls.absent (hW : Recalls m W) (hn : m.Points i n g) (hg : ¬ m.Acquirable g)
    (h : m.Attached i n ∨ W fun m => m.lookup i = .absent) : W fun m => m.lookup i = .absent :=
  h.elim (fun ha => hW.now _ (by rw [lookup_of_points hn ha, if_neg hg])) id

/-- What pointed to an acquirable generation was found active, if the slot is still attached. -/
theorem Recalls.active (hW : Recalls m W) (ha : m.Attached i n)
    (h : W fun m => m.Points i n g ∧ m.Acquirable g) : W fun m => m.lookup i = .active g :=
  hW.later _ _ h fun _ _ hg h => by
    rw [lookup_of_points h.1 (h.1.attached hg ha), if_pos h.2]

namespace Pc

theorem code_statusTryAcquire (q : Query) (i : Ident R K) (n : ℕ) (g : GenId)
    (p : Domain.TryAcquirePc) :
    (Pc.discover q i (.tryAcquire n g p) : Pc R K E).code =
      Domain.tryAcquire g (fun p => .discover q i (.tryAcquire n g p))
        (fun b => if b then .discover q i (.dropState n (.active g))
          else .discover q i (.dropEntry n g)) p := rfl

theorem code_claimTryAcquire (q : Request R K) (n generation : ℕ) (g : GenId)
    (p : Domain.TryAcquirePc) :
    (Pc.acquire q (.claim (.tryAcquire n generation g p)) : Pc R K E).code =
      Domain.tryAcquire g (fun p => .acquire q (.claim (.tryAcquire n generation g p)))
        (fun b => if b then .acquire q (.claim (.dropState n (.active g)))
          else .acquire q (.claim (.dropResource n generation g))) p := rfl

theorem code_upgradeTryAcquire (g : GenId) (p : Domain.TryAcquirePc) :
    (Pc.upgrade g (.tryAcquire p) : Pc R K E).code =
      Domain.tryAcquire g (fun p => .upgrade g (.tryAcquire p))
        (fun b => if b then .upgrade g .deliver else .upgrade g .dropEntry) p := rfl

end Pc

variable [DecidableEq R] [DecidableEq K]

/-- **`try_acquire`.** It succeeds only if there was an instant when the generation was acquirable,
while `P` held, and fails only if now it is not. -/
theorem Domain.wp_tryAcquire_saw {α : Type} {Q : Memory R K E → α → Option α → Prop}
    {goto : TryAcquirePc → α} {ret : Bool → α} {p : TryAcquirePc} {P : Memory R K E → Prop}
    (hW : Recalls m W) (hp : p.Saw m W g P) (hP : P m) (h0 : 0 < m.strong g)
    (hgoto : ∀ p', p'.Saw m W g P → Q m (goto p') none)
    (htrue : m.control g = .active → W (fun m => P m ∧ m.Acquirable g) → Q m (ret true) none)
    (hfalse : ¬ m.Acquirable g → Q m (ret false) none) :
    (tryAcquire g goto ret p).wp cfg t m Q := by
  have refuse {ph : Phase} (hne : ph ≠ .active) (hc : m.control g = ph) : Q m (ret false) none :=
    hfalse fun hacq => hne (hc.symm.trans hacq.1.2)
  cases p
  case accepting => exact ⟨fun _ => hgoto _ trivial, fun ha => hfalse fun hacq => ha hacq.2⟩
  case active =>
    refine ⟨refuse (by decide), fun hc => ?_, refuse (by decide), refuse (by decide)⟩
    exact hgoto _ fun hs => Phase.noConfusion (hs.symm.trans hc)
  case acceptingAgain =>
    exact ⟨fun ha => hgoto _ (hW.now _ ⟨hP, hp, h0, ha⟩), fun ha => hfalse fun hacq => ha hacq.2⟩
  case activeAgain =>
    refine ⟨refuse (by decide), fun hc => htrue hc (hW.later _ _ hp ?_), refuse (by decide),
      refuse (by decide)⟩
    rintro m₀ - hg ⟨hP, hne, h0, ha⟩
    refine ⟨hP, ⟨h0, ?_⟩, ha⟩
    have hle := hg.control g
    rw [hc] at hle
    revert hne hle
    cases m₀.control g <;> decide

theorem status_run {q : Query} {p : StatusPc} (hW : Recalls m W) (hp : p.Saw m W i)
    (hs : p.Sees m i) (hheld : ∀ x, p.held x ≤ m.strong x) (hb : m.Backed) :
    (Pc.discover q i p : Pc R K E).code.wp cfg t m fun m' p' _ => p'.Saw cfg m' W M := by
  cases p
  case slot =>
    exact ⟨trivial, fun _ => ⟨fun n hn => .inl hn, fun hn => hW.now _ (lookup_of_none hn)⟩⟩
  case lockSlot n =>
    refine fun _ => ⟨fun generation hst => ?_, fun generation g hst => hp.imp_right And.left⟩
    exact hp.elim (fun ha => hW.now _ (lookup_of_starting ha hst)) fun h => h.2 _ hst
  case upgrade n g =>
    refine ⟨fun _ => ⟨hp, trivial⟩, fun h0 => ?_⟩
    exact hW.absent hs (fun hacq => Nat.ne_of_gt hacq.1.1 h0) hp
  case tryAcquire n g p =>
    have h0 : 0 < m.strong g := Nat.lt_of_lt_of_le (by simp [StatusPc.held, one]) (hheld g)
    rw [Pc.code_statusTryAcquire]
    refine Domain.wp_tryAcquire_saw (P := fun m => m.Points i n g) hW hp.2 hs h0
      (fun _ h => ⟨hp.1, h⟩) ?_ ?_
    · intro hc h
      obtain ⟨-, generation, hst⟩ := hs
      refine hW.active ((hb i n generation g hst).resolve_right fun hf => ?_) h
      exact Phase.noConfusion (hf.symm.trans hc)
    · exact fun hn => hW.absent hs hn hp.1
  case dropEntry => exact ⟨fun _ => hp, fun _ => hp⟩
  case dropState n st =>
    cases st <;> exact hp
  case deliver => exact hp
  all_goals trivial

theorem claim_run {q : Request R K} {p : Registry.ClaimPc} (hW : Recalls m W)
    (ha : W fun m => m.Accepting) (hp : p.Saw m W q.ident) (hs : p.Sees m q.ident)
    (hheld : ∀ x, p.held x ≤ m.strong x) (hb : m.Bounded) :
    (Pc.acquire q (.claim p) : Pc R K E).code.wp cfg t m fun m' p' _ => p'.Saw cfg m' W M := by
  have refused {n generation : ℕ} {g : GenId} (hs : m.Attached q.ident n ∧
      m.state q.ident n = .active generation g) (hg : ¬ m.Acquirable g) :
      W fun m => m.lookup q.ident = .absent := hW.now _ (lookup_of_refused hs.1 hs.2 hg)
  have occupied (st : ResourceStatus) (hst : st ≠ .absent)
      (h : W fun m => m.lookup q.ident = st) :
      (Acquired.err .occupied).Saw W M (cfg.canonical q.ident.ty) q.ident :=
    ⟨ha, hW.later _ _ h fun _ _ _ h => h ▸ hst⟩
  have vacant (h : W fun m => m.lookup q.ident = .absent) :
      W fun m => m.Vacant (cfg.canonical q.ident.ty) q.ident :=
    hW.later _ _ h fun _ _ _ h _ => h
  cases p
  case entry => exact ⟨trivial, fun _ => ⟨fun _ _ => ⟨ha, trivial⟩, fun _ => ⟨ha, trivial⟩⟩⟩
  case lockSlot => exact fun _ => ⟨fun _ _ => ⟨ha, trivial⟩, fun _ _ _ => ⟨ha, trivial⟩⟩
  case listen =>
    obtain ⟨hat, generation, hst⟩ := hs
    exact ⟨ha, hW.now _ (lookup_of_starting hat hst)⟩
  case upgrade n generation g =>
    refine ⟨fun _ => ⟨ha, trivial⟩, fun h0 => ⟨ha, refused hs fun hacq => ?_⟩⟩
    exact Nat.ne_of_gt hacq.1.1 h0
  case tryAcquire n generation g p =>
    have h0 : 0 < m.strong g := Nat.lt_of_lt_of_le (by simp [Registry.ClaimPc.held, one]) (hheld g)
    rw [Pc.code_claimTryAcquire]
    exact Domain.wp_tryAcquire_saw (P := fun m => m.Points q.ident n g) hW hp
      ⟨hb _ _ hs.1, generation, hs.2⟩ h0 (fun _ h => ⟨ha, h⟩) (fun _ h => ⟨ha, hW.active hs.1 h⟩)
      fun hg => ⟨ha, refused hs hg⟩
  case dropResource => exact ⟨fun _ => ⟨ha, hp⟩, fun _ => ⟨ha, hp⟩⟩
  case recheck => exact ⟨fun _ => ⟨ha, hp⟩, fun _ => ⟨ha, trivial⟩⟩
  case takeover => exact ⟨ha, hp⟩
  case vacant => exact ⟨fun _ => ⟨ha, trivial⟩, fun _ => ⟨ha, trivial⟩⟩
  case insert => exact ⟨ha, hW.now _ (lookup_of_none hs)⟩
  case dropState => exact ⟨ha, hp⟩
  case dropEntry claim =>
    obtain ⟨_ | _ | _, j⟩ := q <;> cases claim
    case spawn.active => exact ⟨ha, hp⟩
    case getOrSpawn.active | tryGetOrSpawn.active => exact .inl hp
    case spawn.owner | getOrSpawn.owner | tryGetOrSpawn.owner => exact vacant hp
    case getOrSpawn.wait => exact ha
    case spawn.wait | tryGetOrSpawn.wait => exact occupied .starting (by decide) hp
    case spawn.occupied | tryGetOrSpawn.occupied => exact ⟨ha, hp⟩
    all_goals exact trivial
  case dropFound g =>
    have hne : ResourceStatus.active g ≠ .absent := fun h => by cases h
    obtain ⟨_ | _ | _, j⟩ := q
    case spawn | tryGetOrSpawn => exact ⟨fun _ => occupied _ hne hp, fun _ => occupied _ hne hp⟩
    case getOrSpawn => exact ⟨fun _ => trivial, fun _ => trivial⟩

theorem acquire_run {q : Request R K} {p : AcquirePc} (hW : Recalls m W)
    (hp : p.Saw m W M (cfg.canonical q.ident.ty) q.ident) (hs : (Pc.acquire q p : Pc R K E).Sees m)
    (hheld : ∀ x, p.held x ≤ m.strong x) (hb : m.Bounded)
    (hmakes : ∀ g, (Pc.acquire q p : Pc R K E).Makes g m → M g) :
    (Pc.acquire q p : Pc R K E).code.wp cfg t m fun m' p' _ => p'.Saw cfg m' W M := by
  cases p
  case claim p => exact claim_run hW hp.1 hp.2 hs hheld hb
  case accepting => exact ⟨fun ha => ⟨hW.now _ ha, trivial⟩, fun _ => trivial⟩
  case listener => exact fun _ => ⟨hp, trivial⟩
  case cloneKey => exact ⟨trivial, hp⟩
  case cloneCleanupKey =>
    refine ⟨trivial, ?_⟩
    have hnone (g : GenId) (P : Prop) : g ∈ (none : Option GenId) → P := fun hg => by cases hg
    exact ⟨fun g => hnone g _, hW.later _ _ hp fun _ _ _ h => ⟨h, fun g => hnone g _⟩⟩
  case create site p =>
    have panicked :
        (Acquired.err .constructionPanicked).Saw W M (cfg.canonical q.ident.ty) q.ident :=
      hW.later _ _ hp.2 fun _ _ _ h => h.1
    cases_type* CreatePc Domain.RegisterPc Control.CancelPc
    case' register.dropSupervisor x => cases x
    case' accepting | build | spawnSupervisor | dropSender => cases site
    case newEntry =>
      refine ⟨fun g hgen => hmakes g (Option.some.inj hgen).symm,
        hW.later _ _ hp.2 fun _ _ hg h => ⟨h.1, ?_⟩⟩
      intro g hgen
      rw [← Option.some.inj hgen]
      exact hg.nextGen
    case spawnSupervisor.none | spawnSupervisor.some =>
      exact ⟨hp.1 _ rfl, hW.later _ _ hp.2 fun _ _ _ h => ⟨h.1, h.2 _ rfl⟩⟩
    all_goals
      repeat' first
        | exact trivial
        | exact hp
        | exact panicked
        | apply And.intro
        | intro _
  case settle n generation g p =>
    cases p
    case start => exact .inr hp
    case dropResource => exact ⟨fun _ => trivial, fun _ => trivial⟩
    all_goals
      repeat' first
        | exact hp
        | apply And.intro
        | intro _
  case guard n generation result p =>
    cases_type* GuardPc Registry.RemovePc
    case' remove.dropState => cases p
    case remove.entry =>
      refine ⟨trivial, fun _ => ⟨fun _ _ => ?_, fun _ => hp⟩⟩
      dsimp only
      split <;> exact hp
    all_goals
      repeat' first
        | exact hp
        | apply And.intro
        | intro _
  case start => exact .inr hp
  case deliver => exact hp
  case returned => trivial

theorem upgrade_run {p : WeakResourceRef.UpgradePc} (hW : Recalls m W) (hp : p.Saw m W g)
    (hheld : ∀ x, p.held g x ≤ m.strong x) :
    (Pc.upgrade g p : Pc R K E).code.wp cfg t m fun m' p' _ => p'.Saw cfg m' W M := by
  have none_ : (Pc.upgrade g (.returned none) : Pc R K E).Saw cfg m W M := fun x hx => by cases hx
  cases p
  case entry => exact ⟨fun _ => trivial, fun _ => none_⟩
  case domain => exact ⟨trivial, trivial⟩
  case tryAcquire p =>
    have h0 : 0 < m.strong g :=
      Nat.lt_of_lt_of_le (by simp [WeakResourceRef.UpgradePc.held, one]) (hheld g)
    rw [Pc.code_upgradeTryAcquire]
    exact Domain.wp_tryAcquire_saw (P := fun _ => True) hW hp trivial h0 (fun _ h => h)
      (fun _ h => hW.later _ _ h fun _ _ _ h => h.2) fun _ => trivial
  case dropEntry => exact ⟨fun _ => none_, fun _ => none_⟩
  case deliver =>
    intro x hx
    cases hx
    exact ⟨rfl, hp⟩
  case returned => trivial

/-! ## The other threads -/

/-- What a step leaves of a slot: it stays attached or its entry is gone, and when it is not
attached it does not become starting. -/
structure Parts (i : Ident R K) (n : ℕ) (m m' : Memory R K E) : Prop where
  attached : m.Attached i n → m'.Attached i n ∨ m'.entries i = none ∧ m'.state i n = m.state i n
  starting : ¬ m.Attached i n → n < m.nextSlot i → ∀ generation,
    m'.state i n = .starting generation → m.state i n = .starting generation

omit [DecidableEq R] [DecidableEq K] in
theorem Parts.of_eq (h1 : m'.entries = m.entries) (h2 : m'.state = m.state) : Parts i n m m' :=
  ⟨fun ha => .inl ((congrFun h1 i).trans ha), fun _ _ _ hst => h2 ▸ hst⟩

theorem wp_parts {α : Type} {ins : Instr R K E α} (hi : ins.Evolves m) :
    ins.wp cfg t m fun m' _ _ => Parts i n m m' := by
  cases ins
  case insertSlot j k =>
    by_cases hj : i = j
    · subst hj
      refine ⟨fun ha => ?_, fun _ hn generation hst => ?_⟩
      · have hnone : m.entries i = none := hi
        exact absurd (hnone.symm.trans ha) (Option.some_ne_none n).symm
      · have hne : ¬ (i = i ∧ n = m.nextSlot i) := fun h => Nat.ne_of_lt hn h.2
        exact (if_neg hne).symm.trans hst
    · have hne : ¬ (i = j ∧ n = m.nextSlot j) := fun h => hj h.1
      exact ⟨fun ha => .inl ((update_of_ne hj _ _).trans ha),
        fun _ _ _ hst => (if_neg hne).symm.trans hst⟩
  case removeEntry j k =>
    refine ⟨fun ha => ?_, fun _ _ _ hst => hst⟩
    by_cases hj : i = j
    · subst hj
      exact .inr ⟨update_self _ _ _, rfl⟩
    · exact .inl ((update_of_ne hj _ _).trans ha)
  case storeState j k st c =>
    refine ⟨.inl, fun ha _ generation hst => ?_⟩
    by_cases he : i = j ∧ n = k
    · obtain ⟨rfl, rfl⟩ := he
      obtain rfl : st = .starting generation := (update₂_self _ _ _ _).symm.trans hst
      exact absurd hi.1 ha
    · exact (if_neg he).symm.trans hst
  all_goals
    repeat' first
      | exact trivial
      | exact .of_eq rfl rfl
      | apply And.intro
      | intro _

variable {s s' : State R K E} {a : Action R K E} {ok : State R K E → Action R K E → Prop}

theorem parts_step (hs : Reach (step cfg) ok State.new s) (h : step cfg s a = some s') :
    Parts i n s.mem s'.mem := by
  refine mem_step (fun m => Parts i n s.mem m) h (.of_eq rfl rfl) ?_ ?_ ?_ ?_
  · rintro t p - rfl -
    exact wp_parts (evolves_of_reach hs t)
  · rintro c m p - hc
    cases hc <;> exact .of_eq rfl rfl
  · exact fun _ _ _ => .of_eq rfl rfl
  · rintro m c hh
    cases hh <;> exact .of_eq rfl rfl

omit [DecidableEq R] [DecidableEq K] in
/-- What a lookup that does not move has seen holds still after a step from `m` to `m'`, both of
which it may have seen. -/
theorem ResourceContext.StatusPc.Saw.stable {q : Query} {p : StatusPc} (hp : p.Saw m W i)
    (hs : p.Sees m i) (hW : ∀ P, W P → W' P) (hg : Grows m m') (hparts : ∀ n, Parts i n m m')
    (hnow : (Pc.discover q i p : Pc R K E).code ≠ .halt → ∀ P, P m ∨ P m' → W' P) :
    p.Saw m' W' i := by
  have still {n : ℕ} (hn : (Pc.discover q i p : Pc R K E).code ≠ .halt)
      (h : m.Attached i n ∨ W fun m => m.lookup i = .absent) :
      m'.Attached i n ∨ W' fun m => m.lookup i = .absent :=
    h.elim (fun ha => ((hparts n).attached ha).imp_right fun h =>
      hnow hn _ (.inr (lookup_of_none h.1))) fun h => .inr (hW _ h)
  cases p
  case lockSlot n =>
    have hn : (Pc.discover q i (.lockSlot n) : Pc R K E).code ≠ .halt := fun h => by cases h
    by_cases ha : m.Attached i n
    · refine ((hparts n).attached ha).imp_right fun h => ⟨hnow hn _ (.inr (lookup_of_none h.1)), ?_⟩
      exact fun generation hst => hnow hn _ (.inl (lookup_of_starting ha (h.2.symm.trans hst)))
    · obtain ⟨h1, h2⟩ := hp.resolve_left ha
      exact .inr ⟨hW _ h1, fun generation hst =>
        hW _ (h2 generation ((hparts n).starting ha hs generation hst))⟩
  case upgrade n g => exact still (fun h => by cases h) hp
  case tryAcquire n g p =>
    refine ⟨still ?_ hp.1, Domain.TryAcquirePc.Saw.mono hW hp.2 hg⟩
    cases p <;> exact fun h => by cases h
  case dropEntry | dropState | deliver | returned => exact hW _ hp
  all_goals trivial

/-! ## Every run -/

variable {vs : List (State R K E)} {es : List (Event R K E)}

/-- The instants of a call are recalled. -/
theorem recalls_of_trace (hs : Trace (step cfg) ok State.new vs s) (hu : InCall u s) :
    Recalls s.mem (Was vs u) where
  now _ hP := ⟨s, hs.last_mem, hu, hP⟩
  later _ _ hP h := by
    obtain ⟨v, hv, hc, hP⟩ := hP
    obtain ⟨hr1, hr2⟩ := hs.reach_of_mem hv
    exact ⟨v, hv, hc, h _ (begun_of_reach hr1) (grows_of_reach hr2) hP⟩

/-- A step of a thread keeps what it has seen. -/
theorem saw_run (hs : Reach (step cfg) ok State.new s) (hlt : u < s.size) (hW : Recalls s.mem W)
    (hmakes : ∀ g, (s.pc u).Makes g s.mem → M g) (hp : (s.pc u).Saw cfg s.mem W M) {ch : Choice}
    {mv : Move (Memory R K E) (Pc R K E)} (he : execute cfg u ch s.mem (s.pc u).code = some mv) :
    mv.pc.Saw cfg mv.mem W M := by
  have hsees := (sees_of_reach hs).2 u
  have hheld := (counted_of_reach hs).held_le hlt
  have hwork := ((wp_work (s.pc u)).sound he).1
  generalize s.pc u = p at he hp hmakes hsees hheld hwork
  cases p
  case discover q i p => exact (status_run hW hp hsees hheld (sited_of_reach hs).backed).sound he
  case upgrade g p => exact (upgrade_run hW hp hheld).sound he
  case acquire q p => exact (acquire_run hW hp hsees hheld (sees_of_reach hs).1 hmakes).sound he
  all_goals
    generalize mv.pc = p' at hwork
    cases p' <;> cases hwork <;> trivial

/-- What a thread that does not move has seen. -/
theorem saw_stable (hs : Reach (step cfg) ok State.new s) (h : step cfg s a = some s')
    (hW : ∀ P, W P → W' P) (hnow : (s.pc u).code ≠ .halt → ∀ P, P s.mem ∨ P s'.mem → W' P)
    (hM : ∀ g, M g → M' g) (hp : (s.pc u).Saw cfg s.mem W M) : (s.pc u).Saw cfg s'.mem W' M' := by
  have hsees := (sees_of_reach hs).2 u
  generalize s.pc u = p at hp hsees hnow
  cases p
  case discover =>
    exact StatusPc.Saw.stable hp hsees hW (grows_step h) (fun _ => parts_step hs h) hnow
  case acquire => exact AcquirePc.Saw.mono hW hp hM (grows_step h)
  case upgrade => exact WeakResourceRef.UpgradePc.Saw.mono hW hp (grows_step h)
  all_goals trivial

/-- The acquisition of thread `u` has made `g`. -/
abbrev HasMade (es : List (Event R K E)) (u : Tid) (g : GenId) : Prop :=
  Happened (Takes u (Pc.Makes g)) es

/-- **What a call has seen**, in every run. -/
theorem saw_of_history (hs : History (step cfg) ok State.new es s) (u : Tid) :
    (s.pc u).Saw cfg s.mem (Was (instants es s) u) (HasMade es u) := by
  induction hs with
  | start => trivial
  | @next es s s' a hs ha h ih =>
    have hr := hs.reach
    have hcons : ∀ P, Was (instants es s) u P → Was (instants ((s, a) :: es) s') u P :=
      fun P hP => hP.cons _
    have hmade (g : GenId) (hg : HasMade es u g) : HasMade ((s, a) :: es) u g :=
      happened_cons.mpr (.inr hg)
    rcases thread_cases h (fresh_of_reach hr) u with he | ⟨ch, mv, rfl, hready, he, hm, hp⟩ |
      ⟨hj, hm⟩ | ⟨-, hi⟩
    · rw [he]
      refine saw_stable hr h hcons (fun hc P hP => ?_) hmade ih
      rcases hP with hP | hP
      · exact ⟨s, List.mem_cons_of_mem _ hs.trace.last_mem, hc, hP⟩
      · refine .here ?_ hP
        unfold InCall
        rwa [he]
    · have hc : InCall u s := by
        intro hcode
        rw [hcode] at he
        cases he
      have hmakes (g : GenId) (hg : (s.pc u).Makes g s.mem) : HasMade ((s, .run u ch) :: es) u g :=
        happened_cons.mpr (.inl (takes_run.mpr hg))
      have hsaw := saw_run hr hready.1 (recalls_of_trace hs.trace hc) hmakes
        (ih.mono (fun _ => id) hmade) he
      rw [hm, hp]
      exact hsaw.mono hcons fun _ => id
    · rw [hm]
      generalize s.pc u = p at hj ih
      generalize s'.pc u = p' at hj
      cases hj <;> trivial
    · have htyped := (placed_of_reach (hr.tail ⟨a, ha, h⟩)).2 u
      generalize hp : s'.pc u = p' at hi htyped
      cases p'
      case acquire q p =>
        rcases hi with rfl | rfl
        · trivial
        · have hnone (g : GenId) (P : Prop) : g ∈ (none : Option GenId) → P := fun hg => by cases hg
          refine ⟨fun g => hnone g _, During.here (fun hcode => ?_) ⟨fun hcan => ?_,
            fun g => hnone g _⟩⟩
          · rw [hp] at hcode
            cases hcode
          · exact Bool.noConfusion ((show false = _ from htyped).trans hcan)
      case discover q i p =>
        obtain rfl : p = .slot := hi
        trivial
      case upgrade g p =>
        obtain rfl : p = .entry := hi
        trivial
      all_goals trivial

/-- What a call has seen, whatever it has made. -/
theorem saw_of_trace (hs : Trace (step cfg) ok State.new vs s) (u : Tid) :
    (s.pc u).Saw cfg s.mem (Was vs u) fun _ => True := by
  obtain ⟨es, hes, rfl⟩ := hs.history
  exact (saw_of_history hes u).mono (fun _ => id) fun _ _ => trivial

theorem wp_makes (hp : p.Makes g m) : p.code.wp cfg t m fun m' p' _ =>
    p'.work = p.work ∧ g < m'.nextGen ∧ ∃ q, p.work = .acquire q ∧ m'.ident g = some q.ident := by
  unfold Pc.Makes at hp
  split at hp
  · subst hp
    exact ⟨rfl, Nat.lt_succ_self _, _, rfl, update_self _ _ _⟩
  · exact hp.elim

/-- What an acquisition has made is a generation of its identity. -/
theorem ident_of_made (hs : History (step cfg) ok State.new es s) (hg : HasMade es u g)
    {q : Request R K} {p : AcquirePc} (hp : s.pc u = .acquire q p) :
    s.mem.ident g = some q.ident := by
  obtain ⟨⟨v, a⟩, he, hrun, hmakes⟩ := hg
  obtain ⟨hv, hok, w, h, hr⟩ := hs.event he
  obtain ⟨ch, rfl⟩ := run_of_runner hrun
  obtain ⟨-, hwork, hlt, q', hq, hident⟩ := pc_of_run h (wp_makes hmakes)
  have hsame : (s.pc u).work = .acquire q' := by
    rw [work_of_reach (hv.tail ⟨_, hok, h⟩) hr, hwork, hq]
    rw [hwork, hq]
    exact nofun
  rw [hp] at hsame
  cases hsame
  exact ((grows_of_reach hr).ident g hlt).trans hident

/-- **Discovery refines one look.** In every run, what has been returned by a call was so at an
instant at which the call was in progress. `get` and `status` answer what a lookup would have found
then. An acquisition that returns a generation has found it active; or it has made it, for its own
identity, having found that absent before the generation existed if the type is canonical. One that
returns `Occupied` has found the identity claimed or active, and one of a canonical type whose build
panics has found it absent. A reference upgraded from a weak one was leased and active while the
domain accepted. -/
theorem discovery_refines_lookup (hs : History (step cfg) (fun _ _ => True) State.new es s) :
    (∀ q i st, s.pc u = .discover q i (.returned st) →
      During (instants es s) (InCall u) fun v => v.mem.lookup i = st) ∧
    (∀ q g, s.pc u = .acquire q (.returned (.ok g)) →
      During (instants es s) (InCall u) (fun v => v.mem.lookup q.ident = .active g) ∨
      Happened (Takes u (Pc.Makes g)) es ∧ s.mem.ident g = some q.ident ∧
        During (instants es s) (InCall u) fun v =>
          v.mem.Vacant (cfg.canonical q.ident.ty) q.ident ∧ v.mem.nextGen ≤ g) ∧
    (∀ q, s.pc u = .acquire q (.returned (.err .occupied)) →
      During (instants es s) (InCall u) fun v => v.mem.lookup q.ident ≠ .absent) ∧
    (∀ q, s.pc u = .acquire q (.returned (.err .constructionPanicked)) →
      During (instants es s) (InCall u) fun v =>
        v.mem.Vacant (cfg.canonical q.ident.ty) q.ident) ∧
    ∀ g x, s.pc u = .upgrade g (.returned (some x)) →
      x = g ∧ During (instants es s) (InCall u) fun v => v.mem.Acquirable g := by
  have hsaw := saw_of_history hs u
  refine ⟨fun q i st hp => ?_, fun q g hp => ?_, fun q hp => ?_, fun q hp => ?_, fun g x hp => ?_⟩
  all_goals rw [hp] at hsaw
  · exact hsaw
  · exact hsaw.imp id fun ⟨hmade, hwas⟩ => ⟨hmade, ident_of_made hs hmade hp, hwas⟩
  · exact hsaw.2
  · exact hsaw
  · exact hsaw x rfl

/-- A `get` during which the only reference to the generation it finds is dropped. -/
def lookingRun : List (Action Unit Unit Unit) :=
  foundRun ++ .call (.discover .get ⟨(), ()⟩) :: List.replicate 3 (.run 2 .go) ++
    .release .outside 0 :: List.replicate 6 (.run 2 .go)

theorem lookingRun_found :
    During (instants (events (step (.single true)) [] State.new lookingRun)
      ((afterwards true lookingRun).get (by decide +kernel))) (InCall 2)
      fun v => v.mem.lookup ⟨(), ()⟩ = .active 0 := by
  have hp : ((afterwards true lookingRun).get (by decide +kernel)).pc 2 =
      .discover .get ⟨(), ()⟩ (.returned (.active 0)) := by decide +kernel
  exact (discovery_refines_lookup (history_exec (P := fun _ => True) (fun _ _ h => h)
    (fun _ _ => trivial) (by decide +kernel))).1 _ _ _ hp

/-- **Lookups are atomic**, in every run. `status` returns what one look at the identity would have
found at an instant between its call and its return; `get` returns a generation that such a look
would have found, or nothing when it would have found none. A claim that is answered with a
generation has such an instant at which the identity is active with it, and a successful `upgrade`
one at which its generation is active and leased and the domain accepts. -/
theorem lookups_are_atomic (hs : Trace (step cfg) (fun _ _ => True) State.new vs s) :
    (∀ i st, s.pc u = .discover .status i (.returned st) →
      During vs (InCall u) fun v => v.mem.lookup i = st) ∧
    (∀ i st, s.pc u = .discover .get i (.returned st) →
      (∀ g, st.toGet = some g → During vs (InCall u) fun v => v.mem.lookup i = .active g) ∧
      (st.toGet = none → During vs (InCall u) fun v => ∀ g, v.mem.lookup i ≠ .active g)) ∧
    (∀ q g, s.pc u = .acquire q (.claim (.dropEntry (.active g))) →
      During vs (InCall u) fun v => v.mem.lookup q.ident = .active g) ∧
    ∀ g x, s.pc u = .upgrade g (.returned (some x)) →
      x = g ∧ During vs (InCall u) fun v =>
        v.mem.control g = .active ∧ 0 < v.mem.strong g ∧ v.mem.Accepting := by
  have hsaw := saw_of_trace hs u
  refine ⟨fun i st hp => ?_, fun i st hp => ⟨fun g hg => ?_, fun hnone => ?_⟩, fun q g hp => ?_,
    fun g x hp => ?_⟩
  all_goals rw [hp] at hsaw
  · exact hsaw
  · cases st <;> cases hg
    exact hsaw
  · obtain ⟨v, hv, hc, rfl⟩ := hsaw
    refine ⟨v, hv, hc, fun g hg => ?_⟩
    rw [hg] at hnone
    cases hnone
  · exact hsaw.2
  · refine (hsaw x rfl).imp_right ?_
    rintro ⟨v, hv, hc, ⟨hpos, hact⟩, hacc⟩
    exact ⟨v, hv, hc, hact, hpos, hacc⟩

/-- A `status` that fetches its slot while the generation is created, and looks at it afterwards. -/
def watchingRun : List (Action Unit Unit Unit) :=
  .call (.acquire ⟨.getOrSpawn, ⟨(), ()⟩⟩) :: List.replicate 8 (.run 0 .go) ++
    .call (.discover .status ⟨(), ()⟩) :: .run 1 .go :: List.replicate 18 (.run 0 .go) ++
    List.replicate 8 (.run 1 .go)

theorem watchingRun_found :
    During (visited (step (.single true)) [State.new] State.new watchingRun) (InCall 1)
      fun v => v.mem.lookup ⟨(), ()⟩ = .active 0 := by
  have hp : ((afterwards true watchingRun).get (by decide +kernel)).pc 1 =
      .discover .status ⟨(), ()⟩ (.returned (.active 0)) := by decide +kernel
  exact (lookups_are_atomic (trace_exec (P := fun _ => True) (fun _ _ h => h)
    (fun _ _ => trivial) (by decide +kernel))).1 _ _ hp

end Resourcery
