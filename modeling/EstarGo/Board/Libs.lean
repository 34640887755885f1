import EstarGo.Board.Struct

/-!
# The liberties of a group, and the groups in atari

The lists of liberties are bounded samples, and each operation on them adds the
group to the list of groups in atari, or removes it from there, as the length of
its list becomes 1 or is 1 no more.  `GroupInfos.Atari` is that invariant.  The
list of groups in atari has a bound, which is an assertion of the source: the
assertions hold as long as there is room for one more.

## Main results

* `Atari.addlib`, `Atari.rmlib`, `Atari.mergeLibs`: the operations keep the
  invariant.
* `findExtraLibs_eq`: the search for more liberties fills the list up from the
  free neighbors of the group.

## Design notes

**Room is assumed, not proved.**  No reason on the board keeps the groups in
atari below the bound, so every lemma takes a condition `ok` under which there
is room, and shows that then no assertion fails.  With `ok` false the lemmas
still say what the lists are; so the structures are known to be right in games
where an assertion has failed.

**Lists in atari are lists of length one.**  A sample of length one is a set of
one liberty, because the list would otherwise be filled up.  So the two
conditions are one as long as `GROUP_REFILL_LIBS` is positive, and the invariant
speaks of lengths alone.
-/

namespace EstarGo

open Verif

namespace GroupInfos

variable {ok : Prop} {gi gi' : GroupInfos} {r coord : ℕ} {l : List ℕ}

/-- The groups in atari are listed, each once, and no assertion has failed where
`ok` rules that out.  Where none has failed, the list is within its bound. -/
structure Atari (ok : Prop) (gi : GroupInfos) : Prop where
  nodup : gi.c.Nodup
  mem : ∀ r, r ∈ gi.c ↔ (gi.lib r).length = 1
  asserted : ok → gi.asserted = true
  bounded : gi.asserted = true → gi.c.length ≤ boardMaxGroups

@[simp] theorem setLib_lib (r : ℕ) (l : List ℕ) :
    (gi.setLib r l).lib = Function.update gi.lib r l := rfl

@[simp] theorem setLib_c (r : ℕ) (l : List ℕ) : (gi.setLib r l).c = gi.c := rfl

@[simp] theorem setLib_asserted (r : ℕ) (l : List ℕ) :
    (gi.setLib r l).asserted = gi.asserted := rfl

@[simp] theorem capturableAdd_lib (r : ℕ) : (gi.capturableAdd r).lib = gi.lib := rfl

@[simp] theorem capturableAdd_c (r : ℕ) : (gi.capturableAdd r).c = gi.c ++ [r] := rfl

@[simp] theorem capturableRm_lib (r : ℕ) : (gi.capturableRm r).lib = gi.lib := by
  unfold capturableRm
  split <;> rfl

theorem capturableRm_of_mem (h : r ∈ gi.c) :
    gi.capturableRm r = { gi with c := discardEntry gi.c r } := if_pos h

/-- An assertion that has not failed has found room. -/
theorem of_capturableAdd_asserted (h : (gi.capturableAdd r).asserted = true) :
    gi.c.length < boardMaxGroups := by
  unfold capturableAdd at h
  simp only [Bool.and_eq_true, decide_eq_true_eq] at h
  exact h.2

/-- Where there is room for a group, the assertion holds. -/
theorem capturableAdd_asserted (h : gi.asserted = true) (hr : r ≠ 0)
    (room : gi.c.length < boardMaxGroups) : (gi.capturableAdd r).asserted = true := by
  unfold capturableAdd
  simp [h, hr, room]

/-- The liberties of the other groups, in the list of those in atari: they are
as they were. -/
theorem Atari.mem_of_ne (h : Atari ok gi) (hlib : gi'.lib = Function.update gi.lib r l) {q : ℕ}
    (hq : q ≠ r) : q ∈ gi.c ↔ (gi'.lib q).length = 1 := by
  rw [hlib, Function.update_of_ne hq, h.mem]

/-- A group comes in atari: its list had another length and has length one
now. -/
theorem Atari.add (h : Atari ok gi) (hlib : gi'.lib = Function.update gi.lib r l)
    (hold : (gi.lib r).length ≠ 1) (hnew : l.length = 1) (hc : gi'.c = gi.c ++ [r])
    (hassert : ok → gi'.asserted = true)
    (hbound : gi'.asserted = true → gi.c.length < boardMaxGroups) : Atari ok gi' := by
  have hout : r ∉ gi.c := fun hr => hold ((h.mem r).mp hr)
  refine ⟨?_, fun q => ?_, hassert, fun ha => ?_⟩
  · rw [hc]
    exact List.nodup_append.mpr ⟨h.nodup, List.nodup_singleton r, fun a ha b hb hab =>
      hout (List.mem_singleton.mp hb ▸ hab ▸ ha)⟩
  · rw [hc, List.mem_append, List.mem_singleton]
    by_cases hq : q = r
    · rw [hq, hlib, Function.update_self]
      exact iff_of_true (.inr rfl) hnew
    · rw [or_iff_left hq, h.mem_of_ne hlib hq]
  · rw [hc, List.length_append, List.length_singleton]
    exact hbound ha

/-- A group is in atari no more: its list had length one and has another now. -/
theorem Atari.rm (h : Atari ok gi) (hlib : gi'.lib = Function.update gi.lib r l)
    (hold : (gi.lib r).length = 1) (hnew : l.length ≠ 1) (hc : gi'.c = discardEntry gi.c r)
    (hassert : gi'.asserted = gi.asserted) : Atari ok gi' := by
  have hin : r ∈ gi.c := (h.mem r).mpr hold
  have hlen := length_discardEntry hin
  refine ⟨?_, fun q => ?_, fun hok => hassert.trans (h.asserted hok), fun ha => ?_⟩
  · rw [hc]
    exact nodup_discardEntry h.nodup hin
  · rw [hc, mem_discardEntry h.nodup hin]
    by_cases hq : q = r
    · rw [hq, hlib, Function.update_self]
      exact iff_of_false (fun h => h.1 rfl) hnew
    · rw [and_iff_right hq, h.mem_of_ne hlib hq]
  · have := h.bounded (hassert.symm.trans ha)
    rw [hc]
    omega

/-- Nothing changes about the atari of a group, whatever happens to its list. -/
theorem Atari.keep (h : Atari ok gi) (hlib : gi'.lib = Function.update gi.lib r l)
    (hsame : (gi.lib r).length = 1 ↔ l.length = 1) (hc : gi'.c = gi.c)
    (hassert : gi'.asserted = gi.asserted) : Atari ok gi' := by
  refine ⟨hc ▸ h.nodup, fun q => ?_, fun hok => hassert.trans (h.asserted hok),
    fun ha => hc ▸ h.bounded (hassert.symm.trans ha)⟩
  rw [hc]
  by_cases hq : q = r
  · rw [hq, hlib, Function.update_self, h.mem, hsame]
  · exact h.mem_of_ne hlib hq

/-! ## A group gains liberties -/

/-- **One more liberty.**  A group without any comes in atari, and one that was
in atari leaves it. -/
theorem Atari.gain (h : Atari ok gi) (hr : r ≠ 0) (room : ok → gi.c.length < boardMaxGroups)
    (coord : ℕ) :
    Atari ok ((gi.beforeGain r (gi.lib r).length).setLib r (gi.lib r ++ [coord])) := by
  have hlen : (gi.lib r ++ [coord]).length = (gi.lib r).length + 1 := by simp
  unfold beforeGain
  by_cases h0 : (gi.lib r).length = 0
  · rw [if_pos h0]
    exact h.add rfl (by omega) (by omega) rfl
      (fun hok => capturableAdd_asserted (h.asserted hok) hr (room hok)) of_capturableAdd_asserted
  · rw [if_neg h0]
    by_cases h1 : (gi.lib r).length = 1
    · rw [if_pos h1, capturableRm_of_mem ((h.mem r).mpr h1)]
      exact h.rm rfl h1 (by omega) rfl rfl
    · rw [if_neg h1]
      exact h.keep rfl (by omega) rfl rfl

theorem beforeGain_lib (r n : ℕ) : (gi.beforeGain r n).lib = gi.lib := by
  unfold beforeGain
  split
  · rfl
  · split
    · exact capturableRm_lib r
    · rfl

/-- The list after it, whatever happens to the groups in atari. -/
theorem addlib_lib (gi : GroupInfos) (r coord : ℕ) :
    (gi.addlib r coord).lib =
      Function.update gi.lib r (addEntry groupKeepLibs (gi.lib r) coord) := by
  unfold addlib
  by_cases hlt : (gi.lib r).length < groupKeepLibs
  · rw [if_pos hlt]
    by_cases hmem : coord ∈ gi.lib r
    · rw [if_pos hmem, addEntry_of_mem hmem, Function.update_eq_self]
    · rw [if_neg hmem, setLib_lib, beforeGain_lib, addEntry_of_lt hlt hmem]
  · rw [if_neg hlt, addEntry, if_neg fun h => hlt h.1, Function.update_eq_self]

/-- **`board_group_addlib`** keeps the groups in atari. -/
theorem Atari.addlib (h : Atari ok gi) (hr : r ≠ 0) (room : ok → gi.c.length < boardMaxGroups)
    (coord : ℕ) : Atari ok (gi.addlib r coord) := by
  unfold GroupInfos.addlib
  split
  · split
    · exact h
    · exact h.gain hr room coord
  · exact h

/-- Add liberties to groups, one after another: a list of pairs, in the order in
which a program comes to them. -/
def addAll (gi : GroupInfos) (adds : List (ℕ × ℕ)) : GroupInfos :=
  adds.foldl (fun gi a => gi.addlib a.1 a.2) gi

/-- A group gets the liberties that are added to it, and no others. -/
theorem addAll_lib (gi : GroupInfos) (adds : List (ℕ × ℕ)) (q : ℕ) :
    (gi.addAll adds).lib q =
      ((adds.filter fun a => a.1 = q).map Prod.snd).foldl (addEntry groupKeepLibs) (gi.lib q) := by
  induction adds generalizing gi with
  | nil => rfl
  | cons a adds ih =>
      show ((gi.addlib a.1 a.2).addAll adds).lib q = _
      rw [ih, addlib_lib]
      by_cases haq : a.1 = q
      · subst haq
        rw [Function.update_self, List.filter_cons_of_pos (by simp)]
        rfl
      · rw [Function.update_of_ne (Ne.symm haq), List.filter_cons_of_neg (by simpa using haq)]

/-! ## A group loses a liberty -/

/-- The list after it: nothing changes where the liberty is not listed. -/
theorem rmlib_lib (refill : List ℕ → List ℕ) (r coord : ℕ) :
    (gi.rmlib refill r coord).lib = Function.update gi.lib r
      (if coord ∈ gi.lib r then refill (discardEntry (gi.lib r) coord) else gi.lib r) := by
  unfold rmlib
  split
  · dsimp only
    split
    · rfl
    · split
      · exact capturableRm_lib r
      · rfl
  · exact (Function.update_eq_self r gi.lib).symm

/-- **One liberty less.**  The refill is any function that leaves short lists
alone and does not make others short; so whether the group comes in atari is
decided by the list before the refill. -/
theorem Atari.rmlib (h : Atari ok gi) (hr : r ≠ 0) (room : ok → gi.c.length < boardMaxGroups)
    {refill : List ℕ → List ℕ}
    (hrefill : ∀ l : List ℕ, l.length < 2 → refill l = l)
    (hgrow : ∀ l : List ℕ, 2 ≤ l.length → 2 ≤ (refill l).length) (coord : ℕ) :
    Atari ok (gi.rmlib refill r coord) := by
  unfold GroupInfos.rmlib
  split
  case isFalse => exact h
  case isTrue hmem =>
    have hlen := length_discardEntry hmem
    dsimp only
    rcases Nat.lt_or_ge (discardEntry (gi.lib r) coord).length 2 with hlt | hge
    · rw [hrefill _ hlt]
      by_cases h1 : (discardEntry (gi.lib r) coord).length = 1
      · rw [if_pos h1]
        exact h.add rfl (by omega) h1 rfl
          (fun hok => capturableAdd_asserted (h.asserted hok) hr (room hok))
          of_capturableAdd_asserted
      · have h0 : (discardEntry (gi.lib r) coord).length = 0 := by omega
        have hin : r ∈ (gi.setLib r (discardEntry (gi.lib r) coord)).c := (h.mem r).mpr (by omega)
        rw [if_neg h1, if_pos h0, capturableRm_of_mem hin]
        exact h.rm rfl (by omega) h1 rfl rfl
    · have hge' := hgrow _ hge
      rw [if_neg (by omega), if_neg (by omega)]
      exact h.keep rfl (by omega) rfl rfl

/-! ## Groups are merged, removed and made

Each of these changes the lists of at most two groups, and for each the list of
groups in atari follows by one of the three ways above: it gains the group,
loses it, or is left alone. -/

/-- The loop adds the liberties of the second group as far as there is room, so
breaking off early changes nothing. -/
theorem mergeLibs_lib (r : ℕ) (gi : GroupInfos) (h : (gi.lib r).length < groupKeepLibs)
    (l : List ℕ) :
    (mergeLibs r gi l).lib =
      Function.update gi.lib r (l.foldl (addEntry groupKeepLibs) (gi.lib r)) := by
  induction l generalizing gi with
  | nil => exact (Function.update_eq_self r gi.lib).symm
  | cons coord rest ih =>
      rw [mergeLibs, List.foldl_cons]
      by_cases hmem : coord ∈ gi.lib r
      · rw [if_pos hmem, ih gi h, addEntry_of_mem hmem]
      · rw [if_neg hmem, addEntry_of_lt h hmem]
        dsimp only
        split
        case isTrue hfull =>
          rw [foldl_addEntry_of_full hfull, setLib_lib, beforeGain_lib]
        case isFalse hroom =>
          rw [ih _ (by rw [setLib_lib, Function.update_self]; omega), setLib_lib,
            Function.update_self, beforeGain_lib, Function.update_idem]

/-- The groups that have liberties are among those that meet `Q`.  With `Q` the
stones of the board, this is what keeps the list of groups in atari short. -/
def Within (gi : GroupInfos) (Q : ℕ → Prop) : Prop := ∀ q, gi.lib q ≠ [] → Q q

/-- There is room for one more group in atari while the groups are among those
that meet `Q`. -/
def Room (ok : Prop) (Q : ℕ → Prop) : Prop :=
  ∀ gi, Atari ok gi → gi.Within Q → ok → gi.c.length < boardMaxGroups

section Room

variable {Q : ℕ → Prop} (room : Room ok Q)

/-- A group that meets `Q` may get any list. -/
theorem Within.update (h : gi.Within Q) (hQ : Q r) (hlib : gi'.lib = Function.update gi.lib r l) :
    gi'.Within Q := by
  intro q hq
  by_cases hqr : q = r
  · exact hqr ▸ hQ
  · rw [hlib, Function.update_of_ne hqr] at hq
    exact h q hq

include room

/-- **The loop of `merge_groups`** keeps the groups in atari. -/
theorem Atari.mergeLibs (h : Atari ok gi) (hr : r ≠ 0) (within : gi.Within Q) (hQ : Q r)
    (l : List ℕ) : Atari ok (mergeLibs r gi l) := by
  induction l generalizing gi with
  | nil => exact h
  | cons coord rest ih =>
      rw [GroupInfos.mergeLibs]
      split
      · exact ih h within
      · have hgain := h.gain hr (room gi h within) coord
        dsimp only
        split
        · exact hgain
        · refine ih hgain (within.update (l := gi.lib r ++ [coord]) hQ ?_)
          rw [setLib_lib, beforeGain_lib]

/-- Liberties are added to several groups. -/
theorem Atari.addAll (h : Atari ok gi) (within : gi.Within Q) {adds : List (ℕ × ℕ)}
    (hadds : ∀ a ∈ adds, a.1 ≠ 0 ∧ Q a.1) :
    Atari ok (gi.addAll adds) ∧ (gi.addAll adds).Within Q := by
  induction adds generalizing gi with
  | nil => exact ⟨h, within⟩
  | cons a adds ih =>
      obtain ⟨ha, hrest⟩ := List.forall_mem_cons.mp hadds
      exact ih (h.addlib ha.1 (room gi h within) a.2)
        (within.update ha.2 (addlib_lib gi a.1 a.2)) hrest

end Room

theorem setLib_comm {q : ℕ} (hq : q ≠ r) (m l : List ℕ) :
    (gi.setLib r l).setLib q m = (gi.setLib q m).setLib r l := by
  unfold setLib
  dsimp only
  rw [Function.update_comm hq]

/-- The list of groups in atari does not look at the list of another group. -/
theorem beforeGain_setLib (q n : ℕ) (m : List ℕ) :
    (gi.beforeGain r n).setLib q m = (gi.setLib q m).beforeGain r n := by
  unfold beforeGain capturableRm
  split
  · rfl
  · split
    · split
      · exact (if_pos ‹_›).symm
      · exact (if_neg ‹_›).symm
    · rfl

/-- Another list of liberties may as well be cleared before the loop, although
the source clears it after. -/
theorem mergeLibs_setLib {q : ℕ} (hq : q ≠ r) (gi : GroupInfos) (m l : List ℕ) :
    (mergeLibs r gi l).setLib q m = mergeLibs r (gi.setLib q m) l := by
  induction l generalizing gi with
  | nil => rfl
  | cons coord rest ih =>
      have hlib : (gi.setLib q m).lib r = gi.lib r := by
        rw [setLib_lib, Function.update_of_ne hq.symm]
      rw [mergeLibs, mergeLibs, hlib]
      split
      · exact ih gi
      · dsimp only
        split
        · rw [setLib_comm hq, beforeGain_setLib]
        · rw [ih, setLib_comm hq, beforeGain_setLib]

/-- The list of a group that is merged into another one is cleared, and the
group leaves the list of those in atari. -/
def clear (gi : GroupInfos) (r : ℕ) : GroupInfos :=
  (if (gi.lib r).length = 1 then gi.capturableRm r else gi).setLib r []

theorem clear_lib (r : ℕ) : (gi.clear r).lib = Function.update gi.lib r [] := by
  unfold clear
  split
  · rw [setLib_lib, capturableRm_lib]
  · rfl

theorem Atari.clear (h : Atari ok gi) (r : ℕ) : Atari ok (gi.clear r) := by
  unfold GroupInfos.clear
  split
  case isTrue h1 =>
    rw [capturableRm_of_mem ((h.mem r).mpr h1)]
    exact h.rm rfl h1 (by decide) rfl rfl
  case isFalse h1 => exact h.keep rfl (iff_of_false h1 (by decide)) rfl rfl

/-- **The lists of a merge**: the first group takes the liberties of the second,
whose list is cleared. -/
theorem mergeGroups_gi (bd : Board) {target source : ℕ} (hne : source ≠ target) :
    (bd.mergeGroups target source).gi =
      if (bd.gi.lib target).length < groupKeepLibs then
        mergeLibs target (bd.gi.clear source) (bd.gi.lib source)
      else bd.gi.clear source := by
  have hlib : (if (bd.gi.lib source).length = 1 then bd.gi.capturableRm source else bd.gi).lib =
      bd.gi.lib := by
    split
    · exact capturableRm_lib source
    · rfl
  unfold Board.mergeGroups clear
  dsimp only
  rw [hlib]
  split
  · exact mergeLibs_setLib hne _ _ _
  · rfl

/-- So the first group has the liberties of both, as far as they find room, and
the second has none. -/
theorem mergeGroups_lib (bd : Board) {target source : ℕ} (hne : source ≠ target) :
    (bd.mergeGroups target source).gi.lib =
      Function.update (Function.update bd.gi.lib source []) target
        ((bd.gi.lib source).foldl (addEntry groupKeepLibs) (bd.gi.lib target)) := by
  have hkeep : (bd.gi.clear source).lib target = bd.gi.lib target := by
    rw [clear_lib, Function.update_of_ne hne.symm]
  rw [mergeGroups_gi bd hne]
  split
  case isTrue hlt => rw [mergeLibs_lib _ _ (hkeep.symm ▸ hlt), hkeep, clear_lib]
  case isFalse hge =>
    rw [foldl_addEntry_of_full (Nat.le_of_not_lt hge), ← hkeep, ← clear_lib,
      Function.update_eq_self]

/-- **`merge_groups`** keeps the groups in atari. -/
theorem Atari.mergeGroups {bd : Board} {Q : ℕ → Prop} (h : Atari ok bd.gi) (room : Room ok Q)
    (within : bd.gi.Within Q) {target source : ℕ} (hne : source ≠ target) (h0 : target ≠ 0)
    (hQ : Q target) :
    Atari ok (bd.mergeGroups target source).gi := by
  have cleared : (bd.gi.clear source).Within Q := by
    intro q hq
    rw [clear_lib] at hq
    by_cases hqs : q = source
    · rw [hqs, Function.update_self] at hq
      exact absurd rfl hq
    · rw [Function.update_of_ne hqs] at hq
      exact within q hq
  rw [mergeGroups_gi bd hne]
  split
  · exact (h.clear source).mergeLibs room h0 cleared hQ _
  · exact h.clear source

/-- The list of a new group, which is in atari where it has one liberty. -/
theorem Atari.make (h : Atari ok gi) (hr : r ≠ 0) (room : ok → gi.c.length < boardMaxGroups)
    (hempty : gi.lib r = []) (l : List ℕ) :
    Atari ok (if l.length = 1 then (gi.setLib r l).capturableAdd r else gi.setLib r l) := by
  have h0 : (gi.lib r).length ≠ 1 := by simp [hempty]
  split
  case isTrue h1 =>
    exact h.add rfl h0 h1 rfl
      (fun hok => capturableAdd_asserted (h.asserted hok) hr (room hok)) of_capturableAdd_asserted
  case isFalse h1 => exact h.keep rfl (iff_of_false h0 h1) rfl rfl

end GroupInfos

/-- **The search for more liberties** adds the free neighbors, less the one to
be avoided. -/
theorem Board.findExtraLibs_eq (bd : Board) (avoid : ℕ) (cs lib : List ℕ)
    (h : lib.length < groupKeepLibs) :
    bd.findExtraLibs avoid cs lib =
      (cs.filter fun c => bd.b c = .none ∧ c ≠ avoid).foldl (addEntry groupKeepLibs) lib := by
  induction cs generalizing lib with
  | nil => rfl
  | cons c cs ih =>
      rw [Board.findExtraLibs]
      by_cases hc : bd.b c = .none ∧ c ≠ avoid
      · rw [List.filter_cons_of_pos (by simpa using hc), List.foldl_cons]
        by_cases hmem : c ∈ lib
        · rw [if_pos (.inr (.inl hmem)), ih lib h, addEntry_of_mem hmem]
        · have hnot : ¬ (bd.b c ≠ .none ∨ c ∈ lib ∨ c = avoid) := by
            rintro (hb | hl | ha)
            · exact hb hc.1
            · exact hmem hl
            · exact hc.2 ha
          rw [if_neg hnot, addEntry_of_lt h hmem]
          split
          case isTrue hfull => rw [foldl_addEntry_of_full hfull]
          case isFalse hroom => exact ih _ (by omega)
      · have hskip : bd.b c ≠ .none ∨ c ∈ lib ∨ c = avoid := by
          by_contra hnot
          simp only [not_or, not_not] at hnot
          exact hc ⟨hnot.1, hnot.2.2⟩
        rw [List.filter_cons_of_neg (by simpa using hc), if_pos hskip, ih lib h]

end EstarGo
