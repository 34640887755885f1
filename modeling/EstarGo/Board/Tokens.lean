import EstarGo.Board.Symmetry

/-!
# The tokens of a history

A history is the text of stones, of passes and of a resignation.
`symmetry_history` keeps the text of a pass and rewrites every other token as
the coordinates of a stone, the one of a resignation as well.

## Main definitions

* `Token`, `Token.text` — what a history is made of, and how it is written.
* `KeepsFormat` — a rewritten history is a history again, and can be turned
  back.

## Main results

* `rotateHistory_text`: a history is rewritten token by token.
* `keepsFormat_iff`: when the rewritten history is one again, and can be turned
  back.

## Design notes

The characters `Z` and `R` of a resignation are the column 25 and the row -15 to
the maps, and only the identity leads these two back to themselves.  So what
becomes of a resignation is a calculation for each of the eight ids, and
everything else is done for all maps at once.
-/

namespace EstarGo

open GoBoard

/-- What two characters of a history stand for. -/
inductive Token where
  | stone (p : Point)
  | pass
  | resign
  deriving DecidableEq

namespace Token

/-- `A..S` with `a..s`, `ZP` and `ZR`: the format that the history is documented
to have. -/
def text : Token → List UInt8
  | stone p => [letter 65 p.2, letter 97 p.1]
  | pass => [90, 80]
  | resign => [90, 82]

/-- The move that `add_move_to_history` is given for the token. -/
def action : Token → ℤ
  | stone p => pos p
  | pass => posPass
  | resign => posResign

/-- The text of a token is what `add_move_to_history` appends for its move. -/
theorem token_action (t : Token) : token t.action = t.text := by
  cases t with
  | stone p =>
      have hpass : (pos p : ℤ) ≠ posPass := by unfold posPass; omega
      have hresign : (pos p : ℤ) ≠ posResign := by unfold posResign; omega
      have hcol : (pos p : ℤ).tmod 19 = p.2.val := by
        rw [Int.tmod_eq_emod_of_nonneg (by omega), pos]
        omega
      have hrow : (pos p : ℤ).tdiv 19 = p.1.val := by
        rw [Int.tdiv_eq_ediv_of_nonneg (by omega), pos]
        omega
      rw [action, token, if_neg hpass, if_neg hresign, hcol, hrow]
      rfl
  | pass => rfl
  | resign => rfl

/-- The characters that `symmetry_history` writes for a row and a column,
whatever these are.  For a point they are a token of it. -/
def coordText (rowCol : ℤ × ℤ) : List UInt8 :=
  [UInt8.ofInt (rowCol.2 + 65), UInt8.ofInt (rowCol.1 + 97)]

/-- A token rewritten: `Z` and `R` are a column and a row as well.  Only a pass
is copied as it is. -/
def rotated (f : Symfunc) : Token → List UInt8
  | stone p => coordText (f p.1.val p.2.val)
  | pass => [90, 80]
  | resign => coordText (f (-15) 25)

/-- The stones of a history mapped back, the other tokens kept.  This is what a
reader of the documented format would do. -/
def reverted (g : Symfunc) : Token → List UInt8
  | stone p => coordText (g p.1.val p.2.val)
  | t => t.text

/-- A token at the image of its point. -/
def map (σ : Point → Point) : Token → Token
  | stone p => stone (σ p)
  | t => t

@[simp] theorem map_eq_pass {σ : Point → Point} {t : Token} : t.map σ = pass ↔ t = pass := by
  cases t <;> simp [map]

@[simp] theorem map_eq_resign {σ : Point → Point} {t : Token} :
    t.map σ = resign ↔ t = resign := by
  cases t <;> simp [map]

@[simp] theorem length_text (t : Token) : t.text.length = 2 := by
  cases t <;> rfl

@[simp] theorem length_rotated (f : Symfunc) (t : Token) : (t.rotated f).length = 2 := by
  cases t <;> rfl

end Token

open Token

variable {f : Symfunc} {tokens tokens' : List Token}

/-- **A history is rewritten token by token**, since every token has two
characters. -/
theorem rotateHistory_text (f : Symfunc) (tokens : List Token) :
    rotateHistory f (tokens.flatMap text) = tokens.flatMap (rotated f) := by
  induction tokens with
  | nil => rfl
  | cons t rest ih =>
      cases t with
      | stone p =>
          show rotateHistory f (letter 65 p.2 :: letter 97 p.1 :: rest.flatMap text) = _
          rw [rotateHistory, if_neg fun h => letter_ne p.2 h.1, ih, toInt_row, toInt_col,
            Int.add_sub_cancel, Int.add_sub_cancel]
          rfl
      | pass => exact congrArg (fun rest => 90 :: 80 :: rest) ih
      | resign =>
          show rotateHistory f (90 :: 82 :: rest.flatMap text) = _
          rw [rotateHistory, if_neg (by decide), ih]
          rfl

/-- Equal texts of as many tokens are equal token by token. -/
theorem rotated_eq_text (hlen : tokens.length = tokens'.length)
    (h : tokens.flatMap (rotated f) = tokens'.flatMap text) {i : ℕ} {t : Token}
    (ht : tokens[i]? = some t) : ∃ t', tokens'[i]? = some t' ∧ t.rotated f = t'.text := by
  induction tokens generalizing tokens' i with
  | nil => cases ht
  | cons t₀ rest ih =>
      obtain ⟨t₀', rest', rfl⟩ := List.exists_cons_of_length_eq_add_one hlen.symm
      rw [List.flatMap_cons, List.flatMap_cons] at h
      obtain ⟨hhead, htail⟩ := List.append_inj h (by simp)
      cases i with
      | zero =>
          obtain rfl := Option.some.inj ht
          exact ⟨t₀', rfl, hhead⟩
      | succ i => exact ih (Nat.succ.inj hlen) htail ht

/-- The identity is the only symmetry that keeps the text of a resignation. -/
theorem rotated_resign_iff {symid : ℤ} (hid : 0 ≤ symid) (hid' : symid ≤ 7) :
    rotated (getSymfunc symid) resign = text resign ↔ symid = 0 := by
  have hcases : symid = 0 ∨ symid = 1 ∨ symid = 2 ∨ symid = 3 ∨ symid = 4 ∨ symid = 5 ∨
      symid = 6 ∨ symid = 7 := by omega
  rcases hcases with rfl | rfl | rfl | rfl | rfl | rfl | rfl | rfl <;> decide

/-- A rewritten token is the text of the token at the image of its point, unless
it is a resignation that was changed. -/
theorem rotated_eq_map {σ : adjacent ≃r adjacent} (maps : Maps f σ) {t : Token}
    (hresign : t = resign → rotated f resign = text resign) :
    t.rotated f = (t.map σ).text := by
  cases t with
  | stone p =>
      rw [rotated, maps p]
      rfl
  | pass => rfl
  | resign => exact hresign rfl

/-- The reverting map turns a token at the image of its point back. -/
theorem reverted_map {σ : adjacent ≃r adjacent} {symid : ℤ} (maps : Maps (getSymfunc symid) σ)
    (t : Token) : (t.map σ).reverted (getRevertSymfunc symid) = t.text := by
  cases t with
  | stone p =>
      have hback := revertSymfunc_symfunc symid p.1.val p.2.val
      rw [maps p] at hback
      rw [Token.map, reverted, hback]
      rfl
  | pass => rfl
  | resign => rfl

/-- The rewritten history is one of as many tokens, its passes and resignations
at the same places, and the reverting map turns it back. -/
def KeepsFormat (tokens : List Token) (symid : ℤ) : Prop :=
  ∃ tokens' : List Token, symmetryHistory (tokens.flatMap text) symid = tokens'.flatMap text ∧
    tokens'.length = tokens.length ∧
    (∀ i : ℕ, tokens'[i]? = some pass ↔ tokens[i]? = some pass) ∧
    (∀ i : ℕ, tokens'[i]? = some resign ↔ tokens[i]? = some resign) ∧
    tokens'.flatMap (reverted (getRevertSymfunc symid)) = tokens.flatMap text

/-- A history that keeps its format has no resignation, or is not turned. -/
theorem KeepsFormat.eq_zero {symid : ℤ} (hid : 0 ≤ symid) (hid' : symid ≤ 7)
    (h : KeepsFormat tokens symid) (hmem : resign ∈ tokens) : symid = 0 := by
  obtain ⟨tokens', htext, hlen, -, hplaces, -⟩ := h
  rw [symmetryHistory, rotateHistory_text] at htext
  obtain ⟨i, hi⟩ := List.mem_iff_getElem?.mp hmem
  obtain ⟨t', ht', heq⟩ := rotated_eq_text hlen.symm htext hi
  rw [(hplaces i).mpr hi] at ht'
  obtain rfl := Option.some.inj ht'
  exact (rotated_resign_iff hid hid').mp heq

/-- **The format is kept** exactly when the history has no resignation or the
symmetry is the identity. -/
theorem keepsFormat_iff (tokens : List Token) {symid : ℤ} (hid : 0 ≤ symid) (hid' : symid ≤ 7) :
    KeepsFormat tokens symid ↔ resign ∉ tokens ∨ symid = 0 := by
  constructor
  · intro h
    rw [or_iff_not_imp_left, not_not]
    exact h.eq_zero hid hid'
  · intro hcases
    obtain ⟨σ, maps⟩ := exists_maps symid
    have hresign : ∀ t ∈ tokens, t = resign →
        rotated (getSymfunc symid) resign = text resign := by
      rintro t hmem rfl
      exact (rotated_resign_iff hid hid').mpr (hcases.resolve_left (not_not.mpr hmem))
    refine ⟨tokens.map (Token.map σ), ?_, List.length_map _, ?_, ?_, ?_⟩
    · rw [symmetryHistory, rotateHistory_text, List.flatMap_map]
      exact List.flatMap_congr fun t hmem => rotated_eq_map maps (hresign t hmem)
    · intro i
      simp [List.getElem?_map]
    · intro i
      simp [List.getElem?_map]
    · rw [List.flatMap_map]
      exact List.flatMap_congr fun t _ => reverted_map maps t

/-- Two stones and a pass, turned. -/
theorem keepsFormat_iff_turned : KeepsFormat [stone (3, 3), stone (15, 3), pass] 1 :=
  (keepsFormat_iff [stone (3, 3), stone (15, 3), pass] (by decide) (by decide)).mpr
    (.inl (by decide))

/-- `ZR` is rewritten to the two characters `bz`. -/
theorem not_keepsFormat :
    symmetryHistory [90, 82] 1 = [98, 122] ∧
      ¬ ∀ (tokens : List Token) (symid : ℤ), 0 ≤ symid → symid ≤ 7 →
        KeepsFormat tokens symid := by
  refine ⟨by decide, fun h => ?_⟩
  have hzero := (h [resign] 1 (by decide) (by decide)).eq_zero (by decide) (by decide)
    (List.mem_singleton_self _)
  exact absurd hzero (by decide)

end EstarGo
