import EstarGo.Gtp.Gtp

/-!
# The time of a move

`est_timeout_rollout` with the times it computes.  The session keeps of it
whether it returns and whether it stops the rollouts; here it has every branch,
and a record of what it divides by.

## Main definitions

* `TimeSettings`, `TimeBudget` — what the function reads and what it sets.
* `estTimeout` — the function, by its branches.
* `WithinTime` — what a budget has to keep to.

## Main results

* `estTimeoutRollout_eq`: what the session keeps of it.
* `estTimeout_returns_iff`: when it returns.
* `estTimeout_within`: the time of a move is within the time that is left.

## Design notes

**The loop.**  The safe time is halved until it is less than the time that is
left.  It is an integer, so halving it ends at zero, and the loop does not end
where no time is left.  It has a number of rounds here, and the results say for
how many it ends.

**Exact quotients.**  The quotients of floats are exact, and truncated toward
zero as the casts are.  The numbers are those of milliseconds, far below what a
float rounds.
-/

namespace EstarGo

/-- The members of `MCTSPlayer` that the configuration sets and
`est_timeout_rollout` reads. -/
structure TimeSettings where
  timePolicy : ℤ
  timeOutMs : ℤ
  isUec : Bool
  stage0SafeTimeS : ℤ
  stage150SafeTimeS : ℤ
  quickPlayMoveNum : ℤ
  quickPlayMoveTimeOutMs : ℤ
  overUsingThrTimeOutMs : ℤ
  underUsingThrTimeOutMs : ℤ
  deriving DecidableEq, Repr

/-- What `est_timeout_rollout` sets, whether it sets `stop_rollout`, and a
record of what it divides by. -/
structure TimeBudget where
  dynamicTimeout : ℤ
  dynamicRollout : ℤ
  stopRollout : Bool
  divisors : List ℤ
  deriving DecidableEq, Repr

/-- `f_early`, the factor of the early exit. -/
def fEarly : ℤ := 2

/-- The end of `est_timeout_rollout`, which every branch comes to. -/
def timeBudget (rolloutSpeed dynamicTimeout : ℤ) (stopRollout : Bool) (divisors : List ℤ) :
    TimeBudget where
  dynamicTimeout := dynamicTimeout
  dynamicRollout := (dynamicTimeout * rolloutSpeed).tdiv 1000
  stopRollout := stopRollout
  divisors := divisors ++ [1000]

/-- `my_remain_move`. -/
def myRemainMove (isUec : Bool) (nMymove : ℕ) : ℤ := if isUec then 200 - nMymove else 100

/-- The divisor of the enhanced formula, which is greater in the first moves. -/
def stage0Divisor (nMymove : ℕ) : ℤ := 50 + if 50 < nMymove then 0 else 50 - nMymove

/-- More time for a move where there is much, and a second where there is
little.  The second may be more than what there is, which the bounds of the
settings exclude. -/
def adjustTimeout (s : TimeSettings) (dynamicTimeout : ℤ) : ℤ :=
  if dynamicTimeout > s.overUsingThrTimeOutMs then fEarly * dynamicTimeout
  else if dynamicTimeout < s.underUsingThrTimeOutMs then 1000
  else dynamicTimeout

/-- `est_timeout_rollout`; `none` where the loop does not end in so many rounds.
The divisors are recorded, so that a division by zero can be spoken of. -/
def estTimeout (rounds : ℕ) (s : TimeSettings) (rolloutSpeed : ℤ) (totalMoves : ℕ)
    (timeRemain : ℤ) : Option TimeBudget :=
  let nMymove := totalMoves / 2
  if s.timePolicy = 0 then some (timeBudget rolloutSpeed s.timeOutMs false [])
  else if s.isUec ∧ 200 ≤ nMymove then some (timeBudget rolloutSpeed 0 true [])
  else if 150 ≤ nMymove then
    (halveSafeTime timeRemain rounds s.stage150SafeTimeS).map fun safeTime =>
      timeBudget rolloutSpeed
        (((timeRemain - safeTime) * 1000).tdiv (myRemainMove s.isUec nMymove)) false
        [myRemainMove s.isUec nMymove]
  else if s.quickPlayMoveNum ≤ nMymove then
    some (timeBudget rolloutSpeed
      (adjustTimeout s (((timeRemain - s.stage0SafeTimeS) * 1000).tdiv (stage0Divisor nMymove)))
      false [stage0Divisor nMymove])
  else some (timeBudget rolloutSpeed s.quickPlayMoveTimeOutMs false [])

/-! ## The loop

Halving, by induction on the rounds. -/

/-- Halving keeps a time that is not negative, and ends below the time that is
left. -/
theorem halveSafeTime_bounds {timeRemain : ℤ} : ∀ {rounds : ℕ} {safeTime result : ℤ},
    0 ≤ safeTime → halveSafeTime timeRemain rounds safeTime = some result →
      0 ≤ result ∧ result < timeRemain
  | 0, safeTime, result, hsafe, h => by
      rw [halveSafeTime] at h
      split at h
      · cases h
      · next hlt =>
          obtain rfl := Option.some.inj h
          exact ⟨hsafe, not_le.mp hlt⟩
  | rounds + 1, safeTime, result, hsafe, h => by
      rw [halveSafeTime] at h
      split at h
      · exact halveSafeTime_bounds (Int.tdiv_nonneg hsafe (by decide)) h
      · next hlt =>
          obtain rfl := Option.some.inj h
          exact ⟨hsafe, not_le.mp hlt⟩

/-- Halving ends exactly where the time is more than zero, or than the safe
time. -/
theorem halveSafeTime_isSome (timeRemain : ℤ) : ∀ (rounds : ℕ) (safeTime : ℤ),
    safeTime.natAbs ≤ rounds →
      ((halveSafeTime timeRemain rounds safeTime).isSome = true ↔
        0 < timeRemain ∨ safeTime < timeRemain)
  | 0, safeTime, small => by
      have zero : safeTime = 0 := by omega
      subst zero
      rw [halveSafeTime]
      split
      · simp; omega
      · simp; omega
  | rounds + 1, safeTime, small => by
      have half : (safeTime.tdiv 2).natAbs ≤ rounds ∧ (safeTime < 0 → safeTime ≤ safeTime.tdiv 2) ∧
          (0 ≤ safeTime → 0 ≤ safeTime.tdiv 2) := by
        rcases le_or_gt 0 safeTime with nonneg | neg
        · rw [Int.tdiv_eq_ediv_of_nonneg nonneg]
          omega
        · have flip : safeTime.tdiv 2 = -(-safeTime / 2) := by
            rw [← Int.tdiv_eq_ediv_of_nonneg (by omega), Int.neg_tdiv, neg_neg]
          omega
      rw [halveSafeTime]
      split
      · rw [halveSafeTime_isSome timeRemain rounds _ half.1]
        omega
      · simp; omega

/-- Without time left it does not end. -/
theorem halveSafeTime_eq_none {timeRemain : ℤ} (hremain : timeRemain ≤ 0) :
    ∀ (rounds : ℕ) {safeTime : ℤ}, 0 ≤ safeTime → halveSafeTime timeRemain rounds safeTime = none
  | 0, _, hsafe => by rw [halveSafeTime, if_pos (hremain.trans hsafe)]
  | rounds + 1, _, hsafe => by
      rw [halveSafeTime, if_pos (hremain.trans hsafe)]
      exact halveSafeTime_eq_none hremain rounds (Int.tdiv_nonneg hsafe (by decide))

/-! ## Whether it returns

One branch has a loop. -/

/-- The branch of the loop. -/
def Halves (s : TimeSettings) (totalMoves : ℕ) : Prop :=
  s.timePolicy ≠ 0 ∧ ¬ (s.isUec = true ∧ 200 ≤ totalMoves / 2) ∧ 150 ≤ totalMoves / 2

variable {s : TimeSettings} {rolloutSpeed timeRemain : ℤ} {totalMoves rounds : ℕ}

/-- It returns where the loop, if it is run, ends. -/
theorem estTimeout_isSome (rounds : ℕ) :
    (estTimeout rounds s rolloutSpeed totalMoves timeRemain).isSome = true ↔
      (Halves s totalMoves →
        (halveSafeTime timeRemain rounds s.stage150SafeTimeS).isSome = true) := by
  unfold estTimeout Halves
  dsimp only
  split
  · simp [*]
  split
  · simp [*]
  split
  · simp [*]
  · split <;> simp [*]

/-- It stops the rollouts in the one branch that allots no time. -/
theorem stopRollout_of_estTimeout {budget : TimeBudget}
    (h : estTimeout rounds s rolloutSpeed totalMoves timeRemain = some budget) :
    budget.stopRollout =
      (decide (s.timePolicy ≠ 0) && s.isUec && decide (200 ≤ totalMoves / 2)) := by
  unfold estTimeout at h
  dsimp only at h
  split at h
  · next off =>
      obtain rfl := Option.some.inj h
      simp [timeBudget, off]
  split at h
  · next on up =>
      obtain rfl := Option.some.inj h
      simp [timeBudget, on, up]
  have kept : (decide (s.timePolicy ≠ 0) && s.isUec && decide (200 ≤ totalMoves / 2)) = false := by
    simp_all
  rw [kept]
  split at h
  · obtain ⟨safeTime, -, rfl⟩ := Option.map_eq_some_iff.mp h
    rfl
  · split at h <;> (obtain rfl := Option.some.inj h; rfl)

/-- **What the session keeps of it**: whether it returns, and whether it stops
the rollouts.  How much time it gives is left to the label of the command
there. -/
theorem estTimeoutRollout_eq {B K : Type} (cfg : GtpConfig B K)
    (e : Engine B K) (hpolicy : s.timePolicy = cfg.timePolicy) (huec : s.isUec = cfg.isUec)
    (hsafe : s.stage150SafeTimeS = cfg.stage150SafeTime) (rolloutSpeed : ℤ) :
    e.estTimeoutRollout cfg =
      (estTimeout s.stage150SafeTimeS.natAbs s rolloutSpeed e.player.rootBoard.getTotalMoves
        e.timeRemain).elim (.error .hang) fun budget => .ok budget.stopRollout := by
  unfold Engine.estTimeoutRollout estTimeout
  rw [← hpolicy, ← huec, ← hsafe]
  dsimp only
  split
  · rfl
  · simp only [Bool.and_eq_true, decide_eq_true_eq]
    split
    · rfl
    · split
      · cases halveSafeTime e.timeRemain s.stage150SafeTimeS.natAbs s.stage150SafeTimeS <;> rfl
      · split <;> rfl

/-- **Time allocation returns** exactly where it does not halve the safe time of
the late game with no time left. -/
theorem estTimeout_returns_iff (s : TimeSettings) (rolloutSpeed timeRemain : ℤ) (totalMoves : ℕ)
    (hsafe : 0 ≤ s.stage150SafeTimeS) (hremain : 0 ≤ timeRemain) :
    (∃ rounds budget, estTimeout rounds s rolloutSpeed totalMoves timeRemain = some budget) ↔
      ¬ (s.timePolicy ≠ 0 ∧ ¬ (s.isUec = true ∧ 200 ≤ totalMoves / 2) ∧
        150 ≤ totalMoves / 2 ∧ timeRemain = 0) := by
  constructor
  · rintro ⟨rounds, budget, hbudget⟩ ⟨hpolicy, huec, hlate, hzero⟩
    have hends := (estTimeout_isSome rounds).mp (Option.isSome_of_eq_some hbudget)
      ⟨hpolicy, huec, hlate⟩
    rw [halveSafeTime_eq_none (le_of_eq hzero) rounds hsafe] at hends
    cases hends
  · intro h
    refine ⟨s.stage150SafeTimeS.natAbs, Option.isSome_iff_exists.mp ?_⟩
    rw [estTimeout_isSome, halveSafeTime_isSome timeRemain _ _ (le_refl _)]
    rintro ⟨hpolicy, huec, hlate⟩
    have hne : timeRemain ≠ 0 := fun hzero => h ⟨hpolicy, huec, hlate, hzero⟩
    omega

/-- The defaults of `Config::Sinit`, in the units of the settings. -/
def defaultTime : TimeSettings where
  timePolicy := 1
  timeOutMs := 15000
  isUec := false
  stage0SafeTimeS := 100
  stage150SafeTimeS := 30
  quickPlayMoveNum := 3
  quickPlayMoveTimeOutMs := 1000
  overUsingThrTimeOutMs := 3000
  underUsingThrTimeOutMs := 2000

/-- The hundred and sixtieth move, with a second left. -/
theorem estTimeout_returns_iff_default :
    ∃ rounds budget, estTimeout rounds defaultTime 40 320 1 = some budget :=
  (estTimeout_returns_iff defaultTime 40 1 320 (by decide) (by decide)).mpr (by decide)

/-- With no time left the hundred and fiftieth move is never made: the safe time
is halved down to zero, which is not below zero. -/
theorem not_estTimeout_returns :
    ¬ ∀ (s : TimeSettings) (rolloutSpeed timeRemain : ℤ) (totalMoves : ℕ),
      0 ≤ s.stage0SafeTimeS → 0 ≤ s.stage150SafeTimeS → 0 ≤ timeRemain →
      ∃ rounds budget, estTimeout rounds s rolloutSpeed totalMoves timeRemain = some budget := by
  intro h
  obtain ⟨rounds, budget, hbudget⟩ := h defaultTime 40 0 300 (by decide) (by decide) (le_refl 0)
  have hends := (estTimeout_isSome rounds).mp (Option.isSome_of_eq_some hbudget)
    ⟨by decide, by decide, by decide⟩
  rw [halveSafeTime_eq_none (le_refl 0) rounds (by decide)] at hends
  cases hends

/-! ## How much time it gives

Branch by branch, what is divided by what. -/

/-- There are moves left, but for the branch that stops the rollouts. -/
theorem myRemainMove_pos {isUec : Bool} {nMymove : ℕ} (h : ¬ (isUec = true ∧ 200 ≤ nMymove)) :
    0 < myRemainMove isUec nMymove := by
  unfold myRemainMove
  split
  · next huec =>
      have : nMymove < 200 := not_le.mp fun hle => h ⟨huec, hle⟩
      omega
  · decide

theorem stage0Divisor_ge (nMymove : ℕ) : 50 ≤ stage0Divisor nMymove := by
  unfold stage0Divisor
  split <;> omega

/-- The share of the late game. -/
theorem lateTimeout_bounds {safeTime divisor : ℤ} (hsafe : 0 ≤ safeTime)
    (hlt : safeTime < timeRemain) (hdivisor : 0 < divisor) :
    0 ≤ ((timeRemain - safeTime) * 1000).tdiv divisor ∧
      ((timeRemain - safeTime) * 1000).tdiv divisor ≤ 1000 * timeRemain := by
  have hnonneg : 0 ≤ (timeRemain - safeTime) * 1000 := by omega
  have hle := Int.tdiv_le_self divisor hnonneg
  exact ⟨Int.tdiv_nonneg hnonneg hdivisor.le, by omega⟩

/-- The enhanced formula leaves time for fifty such moves. -/
theorem stage0Timeout_le {safeTime : ℤ} (hsafe : 0 ≤ safeTime) (hremain : 0 ≤ timeRemain)
    (nMymove : ℕ) :
    ((timeRemain - safeTime) * 1000).tdiv (stage0Divisor nMymove) ≤ 20 * timeRemain := by
  have hdivisor := stage0Divisor_ge nMymove
  rcases le_or_gt 0 ((timeRemain - safeTime) * 1000) with hnonneg | hneg
  · rw [Int.tdiv_eq_ediv_of_nonneg hnonneg]
    refine Int.ediv_le_of_le_mul (by omega) ?_
    calc (timeRemain - safeTime) * 1000 ≤ 20 * timeRemain * 50 := by omega
      _ ≤ 20 * timeRemain * stage0Divisor nMymove :=
        Int.mul_le_mul_of_nonneg_left hdivisor (by omega)
  · have hflip := Int.tdiv_nonneg (a := -((timeRemain - safeTime) * 1000))
      (b := stage0Divisor nMymove) (by omega) (by omega)
    rw [Int.neg_tdiv] at hflip
    omega

/-- Doubling and the second of the fast branch keep to the time that is left. -/
theorem adjustTimeout_bounds {dynamicTimeout : ℤ} (hunder : 0 ≤ s.underUsingThrTimeOutMs)
    (hover : s.underUsingThrTimeOutMs ≤ s.overUsingThrTimeOutMs) (hremain : 1 ≤ timeRemain)
    (hle : dynamicTimeout ≤ 20 * timeRemain) :
    0 ≤ adjustTimeout s dynamicTimeout ∧ adjustTimeout s dynamicTimeout ≤ 1000 * timeRemain := by
  unfold adjustTimeout fEarly
  split
  · omega
  · split <;> omega

/-- What a returned budget has to keep to. -/
structure WithinTime (timeRemain : ℤ) (budget : TimeBudget) : Prop where
  divisors_pos : ∀ d ∈ budget.divisors, 0 < d
  nonneg : 0 ≤ budget.dynamicTimeout
  le : budget.dynamicTimeout ≤ 1000 * timeRemain

/-- One divisor, next to the constant one. -/
theorem withinTime_timeBudget {dynamicTimeout : ℤ} {stopRollout : Bool} {divisors : List ℤ}
    (hdivisors : ∀ d ∈ divisors, 0 < d)
    (hbounds : 0 ≤ dynamicTimeout ∧ dynamicTimeout ≤ 1000 * timeRemain) :
    WithinTime timeRemain (timeBudget rolloutSpeed dynamicTimeout stopRollout divisors) := by
  refine ⟨?_, hbounds.1, hbounds.2⟩
  intro d hd
  rcases List.mem_append.mp hd with h | h
  · exact hdivisors d h
  · rw [List.mem_singleton.mp h]
    decide

/-- **Time allocation keeps to the time that is left.**  With the policy on and
time left it returns, divides by positive numbers only, and gives a move between
zero and all of that time. -/
theorem estTimeout_within (s : TimeSettings) (rolloutSpeed timeRemain : ℤ) (totalMoves : ℕ)
    (hpolicy : s.timePolicy ≠ 0) (hremain : 1 ≤ timeRemain) (hsafe0 : 0 ≤ s.stage0SafeTimeS)
    (hsafe150 : 0 ≤ s.stage150SafeTimeS) (hunder : 0 ≤ s.underUsingThrTimeOutMs)
    (hover : s.underUsingThrTimeOutMs ≤ s.overUsingThrTimeOutMs)
    (hquick : 0 ≤ s.quickPlayMoveTimeOutMs) (hquick' : s.quickPlayMoveTimeOutMs ≤ 1000) :
    (∃ rounds budget, estTimeout rounds s rolloutSpeed totalMoves timeRemain = some budget) ∧
      ∀ rounds budget, estTimeout rounds s rolloutSpeed totalMoves timeRemain = some budget →
        (∀ d ∈ budget.divisors, 0 < d) ∧
          0 ≤ budget.dynamicTimeout ∧ budget.dynamicTimeout ≤ 1000 * timeRemain := by
  constructor
  · refine ⟨s.stage150SafeTimeS.natAbs, Option.isSome_iff_exists.mp ?_⟩
    rw [estTimeout_isSome, halveSafeTime_isSome timeRemain _ _ (le_refl _)]
    omega
  · intro rounds budget h
    have within : WithinTime timeRemain budget := by
      unfold estTimeout at h
      dsimp only at h
      rw [if_neg hpolicy] at h
      split at h
      · obtain rfl := Option.some.inj h
        exact withinTime_timeBudget (by simp) (by omega)
      · next huec =>
          split at h
          · obtain ⟨safeTime, hends, rfl⟩ := Option.map_eq_some_iff.mp h
            obtain ⟨hnonneg, hlt⟩ := halveSafeTime_bounds hsafe150 hends
            have hpos := myRemainMove_pos huec
            exact withinTime_timeBudget (by simpa using hpos) (lateTimeout_bounds hnonneg hlt hpos)
          · split at h
            · obtain rfl := Option.some.inj h
              have hpos := stage0Divisor_ge (totalMoves / 2)
              refine withinTime_timeBudget (by simp; omega)
                (adjustTimeout_bounds hunder hover hremain ?_)
              exact stage0Timeout_le hsafe0 (by omega) (totalMoves / 2)
            · obtain rfl := Option.some.inj h
              exact withinTime_timeBudget (by simp) (by omega)
    exact ⟨within.divisors_pos, within.nonneg, within.le⟩

/-- The fortieth move, with ten minutes left. -/
theorem estTimeout_within_default :
    ∃ budget, estTimeout 0 defaultTime 40 80 600 = some budget ∧ budget.dynamicTimeout = 16666 ∧
      0 ≤ budget.dynamicTimeout ∧ budget.dynamicTimeout ≤ 1000 * 600 := by
  have hbudget : estTimeout 0 defaultTime 40 80 600 =
      some ⟨16666, 666, false, [60, 1000]⟩ := by decide
  have hwithin := (estTimeout_within defaultTime 40 600 80 (by decide) (by decide) (by decide)
    (by decide) (by decide) (by decide) (by decide) (by decide)).2 0 _ hbudget
  exact ⟨_, hbudget, rfl, hwithin.2⟩

end EstarGo
