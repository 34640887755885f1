import EstarGo.Gtp.Gtp
import EstarGo.Player.Perspective

/-!
# The reported winner

The vendored score is positive where White wins.  `get_score_black` negates it,
and `final_score` calls the result `w` and prints `W+` where it is positive: the
letter is that of the loser.  `is_pass_safe` and the score of a double pass have
the winner right.

## Main definitions

* `Reports` — `final_score` answers with the letter of a color and the margin.
* `WinnerUsed` — the other uses of the score go with the winner.

## Main results

* `winnerUsed`: without a tie they do.
* `finalScore_reports_loser`: in every position without a tie, `final_score`
  names the loser, with the right margin.

## Design notes

**One sign.**  All three uses read the same negated score, and only the printing
has its letters the wrong way round.  So the results are about any board and any
score, and no rule of Go is used.
-/

namespace EstarGo

open Verif

variable {B K : Type} [Field K] [LinearOrder K] [FloorRing K]

/-- The answer with the letter of a color and the margin of the score.  The
margin is positive for either color, as the protocol has it. -/
def winnerText (P : Pachi B) (komi : K) (b : B) (color : Color) : List Char :=
  (match color with
    | .white => "W+".toList
    | .black => "B+".toList) ++ fixed1 |P.officialScore komi b|

/-- `final_score` answers with the letter of this color. -/
def Reports (P : Pachi B) (cfg : GtpConfig B K) (g : GTP B K) (e : Engine B K) (color : Color) :
    Prop :=
  g.processCmdFinalscore P cfg =
    .ok (g.gtpPrint (winnerText P cfg.settings.komi e.player.rootBoard.b color))

/-- `is_pass_safe` and the score of a double pass on the board go with the
winner. -/
structure WinnerUsed (P : Pachi B) (cfg : GtpConfig B K) (board : GoBoard B) : Prop where
  passSafe : board.isPassSafe P cfg.settings.komi = true ↔
    Better P cfg.settings.komi board.b board.getColor
  doublePass : ∀ (rootBoard : GoBoard B) (nd : Node K) (leaf : ℕ) (max : ℤ),
    max = 1 ∨ max = -1 → 300 < nd.depth →
      ((requestFor P cfg.settings rootBoard board nd leaf max).trompTaylor = 1 ↔
        Better P cfg.settings.komi board.b (engineColor rootBoard max))

/-- The winner of the position on the board of the player is reported, and used.
The two uses of the score that decide moves go with the report. -/
structure WinnerReported (P : Pachi B) (cfg : GtpConfig B K) (g : GTP B K) (e : Engine B K) :
    Prop where
  reports : ∀ color, Reports P cfg g e color ↔
    Better P cfg.settings.komi e.player.rootBoard.b color
  used : WinnerUsed P cfg e.player.rootBoard

variable {P : Pachi B} {cfg : GtpConfig B K} {g : GTP B K} {e : Engine B K}

omit [FloorRing K] in
/-- **The winner is used.**  A safe pass and the score of a double pass go with
the color that is better. -/
theorem winnerUsed [IsStrictOrderedRing K] {board : GoBoard B}
    (noTie : P.officialScore cfg.settings.komi board.b ≠ 0) : WinnerUsed P cfg board := by
  constructor
  · rw [GoBoard.isPassSafe, decide_eq_true_iff]
    cases board.getColor with
    | black =>
        rw [if_pos rfl, neg_nonneg, Better]
        exact ⟨fun h => lt_of_le_of_ne h noTie, le_of_lt⟩
    | white =>
        rw [if_neg (by simp), Better]
        exact ⟨fun h => lt_of_le_of_ne h noTie.symm, le_of_lt⟩
  · intro rootBoard nd leaf max hmax deep
    classical
    rw [trompTaylor_requestFor hmax deep]
    split
    · exact iff_of_true rfl (by assumption)
    · exact iff_of_false (by simp) (by assumption)

theorem winnerText_injective (komi : K) (b : B) :
    Function.Injective (winnerText P komi b) := by
  intro k k' h
  cases k <;> cases k' <;> first | rfl | exact absurd (List.cons.inj h).1 (by decide)

/-- The answer names the color that is not better. -/
theorem finalScoreText_eq [IsStrictOrderedRing K] {board : GoBoard B} {komi : K} {color : Color}
    (better : Better P komi board.b color) :
    finalScoreText (board.getScoreBlack P komi) = winnerText P komi board.b color.other := by
  unfold finalScoreText GoBoard.getScoreBlack winnerText
  cases color with
  | black =>
      have neg : P.officialScore komi board.b < 0 := better
      rw [if_pos (neg_pos.mpr neg), abs_of_neg neg]
      rfl
  | white =>
      have pos : 0 < P.officialScore komi board.b := better
      rw [if_neg (by simpa using pos.le), abs_of_pos pos, neg_neg]
      rfl

omit [FloorRing K] in
/-- Without ties, one color is better. -/
theorem exists_better {komi : K} {b : B} (noTie : P.officialScore komi b ≠ 0) :
    ∃ winner, ∀ color, Better P komi b color ↔ color = winner := by
  have other (k : Color) := better_other noTie k
  by_cases black : Better P komi b .black
  · refine ⟨.black, fun color => ?_⟩
    cases color with
    | black => exact iff_of_true black rfl
    | white => exact iff_of_false (fun h => (other .black).mp h black) (by simp)
  · refine ⟨.white, fun color => ?_⟩
    cases color with
    | black => exact iff_of_false black (by simp)
    | white => exact iff_of_true ((other .black).mpr black) rfl

/-- `final_score` reports a color exactly where the other one is better. -/
theorem reports_iff [IsStrictOrderedRing K] (he : g.mctsPlayer = some e)
    (noTie : P.officialScore cfg.settings.komi e.player.rootBoard.b ≠ 0) (color : Color) :
    Reports P cfg g e color ↔ Better P cfg.settings.komi e.player.rootBoard.b color.other := by
  obtain ⟨winner, better⟩ := exists_better noTie
  have text := finalScoreText_eq ((better winner).mpr rfl)
  have answer : g.processCmdFinalscore P cfg =
      .ok (g.gtpPrint (winnerText P cfg.settings.komi e.player.rootBoard.b winner.other)) := by
    rw [GTP.processCmdFinalscore, GTP.player, he, ← text]
    rfl
  have other (k : Color) : k.other.other = k := by cases k <;> rfl
  rw [Reports, answer, better]
  constructor
  · intro h
    have printed := congrArg GTP.printed (Except.ok.inj h)
    have same := (List.append_inj_right printed rfl)
    rw [List.cons.injEq] at same
    have texts := List.append_cancel_left (List.append_cancel_right same.1)
    rw [← winnerText_injective _ _ texts, other]
  · rintro rfl
    rw [other]

/-- **`final_score` reports the loser.**  In no position without a tie is the
winner reported: the margin is right, and the letter that of the other color.
The other uses of the score are right. -/
theorem finalScore_reports_loser [IsStrictOrderedRing K] (he : g.mctsPlayer = some e)
    (noTie : P.officialScore cfg.settings.komi e.player.rootBoard.b ≠ 0) :
    ¬ WinnerReported P cfg g e ∧
      (∀ color, Reports P cfg g e color ↔
        Better P cfg.settings.komi e.player.rootBoard.b color.other) ∧
      WinnerUsed P cfg e.player.rootBoard := by
  refine ⟨fun h => ?_, reports_iff he noTie, winnerUsed noTie⟩
  have flipped := (h.reports .black).symm.trans (reports_iff he noTie .black)
  exact (iff_not_self (flipped.trans (better_other noTie .black))).elim

/-- A komi of 7.5 points leaves no ties. -/
theorem noTie_shipped (b : Stones) : pachi.officialScore shippedGtp.settings.komi b ≠ 0 := by
  refine officialScore_ne_zero (fun n tie => ?_) b
  have tie : (15 / 2 : ℚ) = n := tie
  have : (15 : ℤ) = 2 * n := by exact_mod_cast (by linarith : (15 : ℚ) = 2 * n)
  omega

/-- On the empty board White has the komi. -/
theorem better_newSession : Better pachi shippedGtp.settings.komi (GoBoard.new pachi).b .white := by
  show 0 < pachi.officialScore (15 / 2 : ℚ) pachi.clear
  decide +kernel

/-- There `final_score` answers `B+7.5`: on the empty board White is ahead by
komi, and the answer names Black. -/
theorem finalScore_reports_loser_newSession :
    Reports pachi shippedGtp newSession (Engine.new (GoBoard.new pachi)) .black ∧
      winnerText pachi shippedGtp.settings.komi pachi.clear .black = "B+7.5".toList :=
  ⟨((finalScore_reports_loser rfl (noTie_shipped _)).2.1 .black).mpr better_newSession,
    by decide +kernel⟩

/-- That is not the answer for White, who wins. -/
theorem not_winnerReported_newSession :
    ¬ WinnerReported pachi shippedGtp newSession (Engine.new (GoBoard.new pachi)) := by
  intro h
  have reported := (h.reports .white).mpr better_newSession
  have black := (reports_iff rfl (noTie_shipped _) .white).mp reported
  exact (better_other (noTie_shipped _) .white).mp black better_newSession

end EstarGo
