import EstarGo.Config.IniReader
import Mathlib.Data.List.TakeWhile

/-!
# The sections of a file

The lines of a reader are a preamble and then blocks, each with a section line,
the lines that a lookup skips, and the lines that it reads.  A lookup is one in
the first block of its section.

## Main definitions

* `Block`, `reader` — a reader of a preamble and blocks.
* `sections` — the preamble and the blocks of a list of lines.
* `readBlocks` — a lookup in blocks.

## Main results

* `getString_reader`: what a lookup answers.
* `openFile_eq`: the reader of a file.

## Design notes

**Lines that are skipped.**  The index of a section may be off: a write in front
of it moves its lines and not its index.  So a block has lines between its
section line and where lookups start.  In a file that was opened there are none.

**Blocks and lines.**  The source knows only lines and numbers of lines.  Every
result about lookups and writes is first about blocks, in which a section is a
thing of its own.
-/

namespace EstarGo

/-- A section: its line, the lines behind it that the index leaves out, and the
others.  Only a section that the reader has made itself leaves out any, and then
one. -/
structure Block where
  header : Text
  skipped : List Text
  body : List Text
  deriving DecidableEq, Repr

namespace Block

/-- The lines of a section, its own line first. -/
def lines (b : Block) : List Text := b.header :: (b.skipped ++ b.body)

/-- Its line is one of a section, and no other line is. -/
structure Wf (b : Block) : Prop where
  header : b.header.head? = some '['
  skipped : ∀ line ∈ b.skipped, line.head? ≠ some '['
  body : ∀ line ∈ b.body, line.head? ≠ some '['

end Block

/-- The lines of a preamble and of blocks. -/
def render (pre : List Text) (blocks : List Block) : List Text := pre ++ blocks.flatMap Block.lines

/-- The index of blocks, the first of which starts at a line.  The places are
those of the section lines, moved on by the lines that are left out. -/
def indexFrom : ℕ → List Block → List AppIndex
  | _, [] => []
  | n, b :: rest => ⟨b.header, n + b.skipped.length⟩ :: indexFrom (n + b.lines.length) rest

/-- The reader of a preamble and blocks. -/
def reader (pre : List Text) (blocks : List Block) (f : Option OpenMode) : IniReader :=
  ⟨indexFrom pre.length blocks, render pre blocks, f⟩

/-- A line with a key. -/
def HasKey (keyName line : Text) : Prop := cStr (keyOf line) = cStr keyName

instance (keyName line : Text) : Decidable (HasKey keyName line) :=
  inferInstanceAs (Decidable (_ = _))

/-- A lookup in the lines of a section: it throws at an empty line, and finds
the first line with the key.  The outer option is for throwing, the inner one
for a key that is not there. -/
def readLines (keyName : Text) : List Text → Option (Option Text)
  | [] => some none
  | line :: rest =>
      if line = [] then none
      else if HasKey keyName line then some (some (valueOf line))
      else readLines keyName rest

/-- The first block of a section.  Another one with the same name is never
looked at. -/
def blockOf (blocks : List Block) (appName : Text) : Option Block :=
  blocks.find? fun b => cStr b.header = bracketed appName

/-- A lookup in blocks. -/
def readBlocks (blocks : List Block) (appName keyName : Text) : Option (Option Text) :=
  (blockOf blocks appName).elim (some none) fun b => readLines keyName b.body

/-- The preamble and the blocks of lines. -/
def sections : List Text → List Text × List Block
  | [] => ([], [])
  | line :: rest =>
      if line.head? = some '[' then ([], ⟨line, [], (sections rest).1⟩ :: (sections rest).2)
      else (line :: (sections rest).1, (sections rest).2)

/-! ## Lines -/

/-- What is in front of the first `=`. -/
theorem keyOf_append {left right : Text} (h : '=' ∉ left) :
    keyOf (left ++ '=' :: right) = left := by
  have hleft : ∀ c ∈ left, decide (c ≠ '=') = true := fun c hc =>
    decide_eq_true fun heq => h (heq ▸ hc)
  rw [keyOf, List.takeWhile_append_of_pos hleft]
  simp

theorem valueOf_append {left right : Text} (h : '=' ∉ left) :
    valueOf (left ++ '=' :: right) = right := by
  have hleft : ∀ c ∈ left, decide (c ≠ '=') = true := fun c hc =>
    decide_eq_true fun heq => h (heq ▸ hc)
  rw [valueOf, if_pos (by simp), List.dropWhile_append_of_pos hleft]
  simp

/-! ## Lookups

The two loops of a lookup, from blocks to lines. -/

/-- A C string ends at its first null. -/
theorem null_not_mem_cStr (text : Text) : Char.ofNat 0 ∉ cStr text := fun h => by
  simpa using List.mem_takeWhile_imp h

/-- A text without a null is one. -/
theorem cStr_of_not_mem {text : Text} (h : Char.ofNat 0 ∉ text) : cStr text = text := by
  refine List.takeWhile_eq_self_iff.mpr fun c hc => ?_
  exact decide_eq_true fun heq => h (heq ▸ hc)

/-- Reading a C string twice is reading it once. -/
@[simp] theorem cStr_cStr (text : Text) : cStr (cStr text) = cStr text :=
  cStr_of_not_mem (null_not_mem_cStr text)

/-- A section in brackets is a C string. -/
@[simp] theorem cStr_bracketed (appName : Text) : cStr (bracketed appName) = bracketed appName := by
  refine cStr_of_not_mem fun h => ?_
  rw [bracketed, List.mem_append, List.mem_cons, List.mem_singleton] at h
  rcases h with (h | h) | h
  · exact absurd h (by decide)
  · exact null_not_mem_cStr appName h
  · exact absurd h (by decide)

/-- The first line of blocks is one of a section. -/
theorem head_flatMap_lines {blocks : List Block} (hblocks : ∀ b ∈ blocks, b.Wf) :
    ∀ line ∈ (blocks.flatMap Block.lines).head?, line.head? = some '[' := by
  cases blocks with
  | nil => simp
  | cons b rest =>
      intro line hline
      obtain rfl : b.header = line := by simpa [Block.lines] using hline
      exact (hblocks b List.mem_cons_self).header

/-- The scan of a section: of its lines, then of the next section's line, or of
none. -/
theorem scan_append (keyName : Text) {body rest : List Text}
    (hbody : ∀ line ∈ body, line.head? ≠ some '[')
    (hrest : ∀ line ∈ rest.head?, line.head? = some '[') (key : ℕ) :
    (readLines keyName body = none ∧ scanKeys keyName key (body ++ rest) = .thrown) ∨
      (∃ before line after, body = before ++ line :: after ∧ HasKey keyName line ∧
        (∀ l ∈ before, ¬ HasKey keyName l) ∧
        readLines keyName body = some (some (valueOf line)) ∧
        scanKeys keyName key (body ++ rest) = .found (key + before.length) line) ∨
      ((∀ l ∈ body, ¬ HasKey keyName l) ∧ readLines keyName body = some none ∧
        scanKeys keyName key (body ++ rest) = if rest = [] then .exhausted else .stopped) := by
  induction body generalizing key with
  | nil =>
      refine .inr (.inr ⟨by simp, rfl, ?_⟩)
      cases rest with
      | nil => rfl
      | cons line rest =>
          have hhead := hrest line rfl
          cases line with
          | nil => cases hhead
          | cons c line =>
              obtain rfl := Option.some.inj hhead
              simp [scanKeys]
  | cons line body ih =>
      obtain ⟨hline, htail⟩ := List.forall_mem_cons.mp hbody
      cases line with
      | nil => exact .inl ⟨rfl, rfl⟩
      | cons c line =>
          have hc : c ≠ '[' := fun h => hline (congrArg some h)
          rw [List.cons_append, scanKeys, if_neg hc, readLines, if_neg (List.cons_ne_nil c line)]
          by_cases hkey : HasKey keyName (c :: line)
          · rw [if_pos hkey.symm, if_pos hkey]
            exact .inr (.inl ⟨[], c :: line, body, rfl, hkey, by simp, rfl, rfl⟩)
          · rw [if_neg (Ne.symm hkey), if_neg hkey]
            rcases ih htail (key + 1) with ⟨hread, hscan⟩ | hfound | ⟨hnone, hread, hscan⟩
            · exact .inl ⟨hread, hscan⟩
            · obtain ⟨before, l, after, rfl, hl, hbefore, hread, hscan⟩ := hfound
              refine .inr (.inl ⟨(c :: line) :: before, l, after, rfl, hl, ?_, hread, ?_⟩)
              · exact List.forall_mem_cons.mpr ⟨hkey, hbefore⟩
              · rw [hscan, List.length_cons, Nat.add_assoc, Nat.add_comm 1]
            · exact .inr (.inr ⟨List.forall_mem_cons.mpr ⟨hkey, hnone⟩, hread, hscan⟩)

/-- The lines in front of those that a lookup reads, and these. -/
theorem render_cons (front : List Text) (b : Block) (rest : List Block) :
    render front (b :: rest) =
      (front ++ b.header :: b.skipped) ++ (b.body ++ rest.flatMap Block.lines) := by
  simp [render, Block.lines]

/-- A block moves from the blocks to what is in front of them. -/
theorem render_append (front : List Text) (b : Block) (rest : List Block) :
    render front (b :: rest) = render (front ++ b.lines) rest := by
  simp [render]

/-- How many lines there are in front of those that a lookup reads. -/
theorem length_front (front : List Text) (b : Block) :
    (front ++ b.header :: b.skipped).length = front.length + b.skipped.length + 1 := by
  simp
  omega

open IniReader in
/-- The outer loop of a lookup, by induction on the blocks: it stops in the
first block of its section, whatever the section has. -/
theorem getStringFrom_indexFrom {blocks : List Block} (hblocks : ∀ b ∈ blocks, b.Wf)
    (front : List Text) (appName keyName defaultValue : Text) :
    getStringFrom (render front blocks) appName keyName defaultValue
        (indexFrom front.length blocks) =
      (readBlocks blocks appName keyName).map (·.getD defaultValue) := by
  induction blocks generalizing front with
  | nil => rfl
  | cons b rest ih =>
      obtain ⟨hb, hrest⟩ := List.forall_mem_cons.mp hblocks
      have hih := ih hrest (front ++ b.lines)
      rw [List.length_append] at hih
      rw [indexFrom, getStringFrom, cStr_bracketed, readBlocks, blockOf, List.find?_cons]
      by_cases hname : cStr b.header = bracketed appName
      · rw [if_pos hname.symm]
        simp only [hname, decide_true, Option.elim_some]
        rw [render_cons, List.drop_left' (length_front front b)]
        rcases scan_append keyName hb.body (head_flatMap_lines hrest)
            (front.length + b.skipped.length + 1) with
          ⟨hread, hscan⟩ | ⟨_, line, _, _, _, _, hread, hscan⟩ | ⟨_, hread, hscan⟩
        · rw [hscan, hread]
          rfl
        · rw [hscan, hread]
          rfl
        · rw [hscan, hread]
          cases rest with
          | nil => rfl
          | cons b' rest => simp [Block.lines]
      · rw [if_neg (Ne.symm hname), render_append, hih]
        simp [hname, readBlocks, blockOf]

/-- **What a lookup answers**: the value of the first line with the key in the
first block of the section, or the default; it throws where an empty line comes
first. -/
theorem getString_reader {pre : List Text} {blocks : List Block} (hblocks : ∀ b ∈ blocks, b.Wf)
    (f : Option OpenMode) (appName keyName defaultValue : Text) :
    (reader pre blocks f).getString appName keyName defaultValue =
      (readBlocks blocks appName keyName).map (·.getD defaultValue) := by
  rw [IniReader.getString]
  split_ifs with hnone
  · cases blocks with
    | nil => rfl
    | cons b rest => simp [reader, render, indexFrom, Block.lines] at hnone
  · exact getStringFrom_indexFrom hblocks pre appName keyName defaultValue

/-! ## The sections of lines

A file has a preamble and blocks, and these have the lines of the file. -/

/-- A section as a new reader of its lines has it. -/
def Block.reread (b : Block) : Block := ⟨b.header, [], b.skipped ++ b.body⟩

/-- Lines in front of the first section are the preamble. -/
theorem sections_append {body rest : List Text} (hbody : ∀ line ∈ body, line.head? ≠ some '[') :
    sections (body ++ rest) = (body ++ (sections rest).1, (sections rest).2) := by
  induction body with
  | nil => rfl
  | cons line body ih =>
      obtain ⟨hline, htail⟩ := List.forall_mem_cons.mp hbody
      rw [List.cons_append, sections, if_neg hline, ih htail]
      rfl

/-- The sections of the lines of blocks are the blocks again. -/
theorem sections_flatMap_lines {blocks : List Block} (hblocks : ∀ b ∈ blocks, b.Wf) :
    sections (blocks.flatMap Block.lines) = ([], blocks.map Block.reread) := by
  induction blocks with
  | nil => rfl
  | cons b rest ih =>
      obtain ⟨hb, hrest⟩ := List.forall_mem_cons.mp hblocks
      have hbody : ∀ line ∈ b.skipped ++ b.body, line.head? ≠ some '[' := fun line hline =>
        (List.mem_append.mp hline).elim (hb.skipped line) (hb.body line)
      rw [List.flatMap_cons, Block.lines, List.cons_append, sections, if_pos hb.header,
        sections_append hbody, ih hrest]
      simp [Block.reread]

theorem sections_render {pre : List Text} {blocks : List Block}
    (hpre : ∀ line ∈ pre, line.head? ≠ some '[') (hblocks : ∀ b ∈ blocks, b.Wf) :
    sections (render pre blocks) = (pre, blocks.map Block.reread) := by
  rw [render, sections_append hpre, sections_flatMap_lines hblocks, List.append_nil]

/-- The sections of lines are well formed. -/
theorem sections_wf (lines : List Text) :
    (∀ line ∈ (sections lines).1, line.head? ≠ some '[') ∧
      ∀ b ∈ (sections lines).2, b.Wf ∧ b.skipped = [] := by
  induction lines with
  | nil => simp [sections]
  | cons line rest ih =>
      rw [sections]
      split_ifs with hline
      · refine ⟨by simp, List.forall_mem_cons.mpr ⟨⟨⟨hline, by simp, ih.1⟩, rfl⟩, ih.2⟩⟩
      · exact ⟨List.forall_mem_cons.mpr ⟨hline, ih.1⟩, ih.2⟩

theorem render_sections (lines : List Text) :
    render (sections lines).1 (sections lines).2 = lines := by
  induction lines with
  | nil => rfl
  | cons line rest ih =>
      rw [render] at ih
      rw [sections]
      split_ifs with hline
      · simp [render, Block.lines, ih]
      · simp [render, ih]

open IniReader in
/-- The index of lines is that of their sections. -/
theorem indexLines_eq (n : ℕ) (lines : List Text) :
    indexLines n lines = indexFrom (n + (sections lines).1.length) (sections lines).2 := by
  induction lines generalizing n with
  | nil => rfl
  | cons line rest ih =>
      rw [indexLines, sections, ih]
      split_ifs with hline
      · simp [indexFrom, Block.lines, Nat.add_assoc, Nat.add_comm 1]
      · simp [Nat.add_assoc, Nat.add_comm 1]

/-- There is an index where there is a block. -/
theorem indexFrom_eq_nil {n : ℕ} {blocks : List Block} : indexFrom n blocks = [] ↔ blocks = [] := by
  cases blocks <;> simp [indexFrom]

/-- The reader of a file: none of its lines where it has no section.  Otherwise
the lines are divided, and no line is left out. -/
theorem openFile_eq (file : Text) :
    (IniReader.new.openFile file).1 =
      if (sections (getLines file)).2 = [] then reader [] [] none
      else reader (sections (getLines file)).1 (sections (getLines file)).2 (some .input) := by
  rw [IniReader.openFile, if_neg (by decide)]
  simp only [indexLines_eq, Nat.zero_add, ne_eq, indexFrom_eq_nil]
  by_cases hblocks : (sections (getLines file)).2 = []
  · rw [if_pos hblocks, if_neg (by simp [hblocks])]
    rfl
  · have hlines : getLines file ≠ [] := by
      rintro hnil
      exact hblocks (by rw [hnil]; rfl)
    rw [if_neg hblocks, if_pos ⟨hlines, hblocks⟩, reader, render_sections]

/-- So a lookup in a file is one in its sections. -/
theorem getString_openFile (file appName keyName defaultValue : Text) :
    (IniReader.new.openFile file).1.getString appName keyName defaultValue =
      (readBlocks (sections (getLines file)).2 appName keyName).map (·.getD defaultValue) := by
  have hwf := (sections_wf (getLines file)).2
  rw [openFile_eq]
  split_ifs with hblocks
  · rw [hblocks]
    exact getString_reader (by simp) none appName keyName defaultValue
  · exact getString_reader (fun b hb => (hwf b hb).1) _ appName keyName defaultValue

/-- Lines, each with its end, are read back. -/
theorem getLines_flatMap {lines : List Text} (hlines : ∀ line ∈ lines, '\n' ∉ line) :
    getLines (lines.flatMap fun line => line ++ ['\n']) = lines := by
  induction lines with
  | nil => rfl
  | cons line rest ih =>
      obtain ⟨hline, hrest⟩ := List.forall_mem_cons.mp hlines
      rw [List.flatMap_cons]
      induction line with
      | nil =>
          rw [List.nil_append, List.singleton_append, getLines, if_pos rfl, ih hrest]
      | cons c line ihline =>
          obtain ⟨hc, hline⟩ := not_or.mp fun h => hline (List.mem_cons.mpr h)
          rw [List.cons_append, List.cons_append, getLines, if_neg (Ne.symm hc), ihline _ hline]
          exact List.forall_mem_cons.mpr ⟨hline, hrest⟩

end EstarGo
