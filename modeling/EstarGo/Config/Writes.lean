import EstarGo.Config.Sections
import EstarGo.Lib.WriteLog

/-!
# Writes to sections

A write to a section that the reader has replaces the line of its key, or puts a
line in front of those that a lookup reads; the index follows.  A write to a new
section puts its two lines at the end, and the index of the section is that of
the second: a lookup skips it.

## Main definitions

* `Writable` — a write as an entry may be.
* `writeBlocks` — a write to blocks.
* `findIn` — what the lines of a section say of a key.

## Main results

* `writeString_reader`: a write to a reader is one to its blocks.
* `findIn_body_writeBlocks`, `findIn_skipped_writeBlocks`: what sections say
  after a write.

## Design notes

**Two parts of a section.**  What a lookup reads and what it skips are the body
and the skipped lines of a block.  A write goes to one of them, and which one
depends on whether the section is there; so the two are followed by one
definition, with the part as a parameter.

**No empty lines.**  A lookup throws at one, and so does a write.  Neither a
reader that saves nor a write makes any.
-/

namespace EstarGo

open IniReader

/-- A section name, a key and a value. -/
abbrev KeyWrite := (Text × Text) × Text

/-- A write as an entry may be: the names are C strings, and the key begins a
line that is no section line.  The value may hold anything that stays on its
line. -/
structure Writable (w : KeyWrite) : Prop where
  section_null : Char.ofNat 0 ∉ w.1.1
  key_null : Char.ofNat 0 ∉ w.1.2
  value_null : Char.ofNat 0 ∉ w.2
  key : w.1.2 ≠ [] ∧ w.1.2.head? ≠ some '[' ∧ '=' ∉ w.1.2
  line : '\n' ∉ w.1.1 ∧ '\n' ∉ w.1.2 ∧ '\n' ∉ w.2

/-- The line of a write, without blanks. -/
def writeLine (w : KeyWrite) : Text := w.1.2 ++ '=' :: w.2

/-- The first line of a key replaced. -/
def replaceLine (w : KeyWrite) : List Text → Option (List Text)
  | [] => none
  | line :: rest =>
      if HasKey w.1.2 line then some (writeLine w :: rest)
      else (replaceLine w rest).map (line :: ·)

/-- A write to the lines of a section: the key's line, or a line in front of
all.  A key that occurs twice is replaced where it occurs first, which is where
it is read. -/
def writeBody (w : KeyWrite) (body : List Text) : List Text :=
  (replaceLine w body).getD (writeLine w :: body)

/-- A write to blocks. -/
def writeBlocks : List Block → KeyWrite → List Block
  | [], w => [⟨bracketed w.1.1, [writeLine w], []⟩]
  | b :: rest, w =>
      if cStr b.header = bracketed w.1.1 then { b with body := writeBody w b.body } :: rest
      else b :: writeBlocks rest w

/-- Every line behind a section line is one of no section, and is not empty.  No
lookup and no write throws then. -/
structure Block.Tidy (b : Block) : Prop where
  wf : b.Wf
  nonempty : ∀ line ∈ b.skipped ++ b.body, line ≠ []

/-! ## A write to the lines of a section

What they say before and after. -/

section

variable {w : KeyWrite} {before after body : List Text} {line : Text}

/-- Where the key has a line, that line is replaced. -/
theorem writeBody_found (hline : HasKey w.1.2 line) (hbefore : ∀ l ∈ before, ¬ HasKey w.1.2 l) :
    writeBody w (before ++ line :: after) = before ++ writeLine w :: after := by
  have hreplace : replaceLine w (before ++ line :: after) =
      some (before ++ writeLine w :: after) := by
    induction before with
    | nil => exact if_pos hline
    | cons l before ih =>
        obtain ⟨hl, hrest⟩ := List.forall_mem_cons.mp hbefore
        rw [List.cons_append, replaceLine, if_neg hl, ih hrest]
        rfl
  rw [writeBody, hreplace, Option.getD_some]

/-- Where it has none, one is put in front. -/
theorem writeBody_absent (hbody : ∀ l ∈ body, ¬ HasKey w.1.2 l) :
    writeBody w body = writeLine w :: body := by
  have hreplace : replaceLine w body = none := by
    induction body with
    | nil => rfl
    | cons l body ih =>
        obtain ⟨hl, hrest⟩ := List.forall_mem_cons.mp hbody
        rw [replaceLine, if_neg hl, ih hrest]
        rfl
  rw [writeBody, hreplace, Option.getD_none]

theorem writeBody_cases (w : KeyWrite) (body : List Text) :
    (∃ before line after, body = before ++ line :: after ∧ HasKey w.1.2 line ∧
        (∀ l ∈ before, ¬ HasKey w.1.2 l) ∧ writeBody w body = before ++ writeLine w :: after) ∨
      ((∀ l ∈ body, ¬ HasKey w.1.2 l) ∧ writeBody w body = writeLine w :: body) := by
  rcases Verif.exists_first (HasKey w.1.2 ·) body with hnone | ⟨before, line, after, rfl, h, hb⟩
  · exact .inr ⟨hnone, writeBody_absent hnone⟩
  · exact .inl ⟨before, line, after, rfl, h, hb, writeBody_found h hb⟩

theorem mem_writeBody {l : Text} (h : l ∈ writeBody w body) : l = writeLine w ∨ l ∈ body := by
  rcases writeBody_cases w body with ⟨before, line, after, rfl, -, -, heq⟩ | ⟨-, heq⟩
  · rw [heq, List.mem_append, List.mem_cons] at h
    rw [List.mem_append, List.mem_cons]
    tauto
  · rw [heq, List.mem_cons] at h
    exact h

/-- The line of a write has the key of the write, and no other. -/
theorem Writable.hasKey_writeLine (hw : Writable w) (keyName : Text) :
    HasKey keyName (writeLine w) ↔ w.1.2 = cStr keyName := by
  rw [HasKey, writeLine, keyOf_append hw.key.2.2, cStr_of_not_mem hw.key_null]

theorem Writable.head_writeLine (hw : Writable w) :
    (writeLine w).head? ≠ some '[' ∧ writeLine w ≠ [] := by
  obtain ⟨hne, hhead, -⟩ := hw.key
  obtain ⟨c, key, hkey⟩ := List.exists_cons_of_ne_nil hne
  rw [hkey] at hhead
  exact ⟨by simpa [writeLine, hkey] using hhead, by simp [writeLine]⟩

/-- What lines say of a key: the value of the first line that has it. -/
def findKey (keyName : Text) (body : List Text) : Option Text :=
  (body.find? (HasKey keyName ·)).map valueOf

@[simp] theorem findKey_nil {keyName : Text} : findKey keyName [] = none := rfl

/-- Line by line, the first one wins. -/
theorem findKey_cons (keyName line : Text) (body : List Text) :
    findKey keyName (line :: body) =
      if HasKey keyName line then some (valueOf line) else findKey keyName body := by
  rw [findKey, findKey, List.find?_cons]
  by_cases hkey : HasKey keyName line
  · simp [hkey]
  · simp [hkey]

theorem findKey_append (keyName : Text) (body rest : List Text) :
    findKey keyName (body ++ rest) = (findKey keyName body).or (findKey keyName rest) := by
  rw [findKey, findKey, findKey, List.find?_append]
  cases body.find? (HasKey keyName ·) <;> rfl

/-- Lines without the key say nothing of it. -/
theorem findKey_eq_none {keyName : Text} (h : ∀ l ∈ body, ¬ HasKey keyName l) :
    findKey keyName body = none := by
  have hfind : body.find? (HasKey keyName ·) = none :=
    List.find?_eq_none.mpr fun l hl => by simpa using h l hl
  rw [findKey, hfind, Option.map_none]

/-- The line of a write in front of others. -/
theorem findKey_writeLine_cons (hw : Writable w) (keyName : Text) (body : List Text) :
    findKey keyName (writeLine w :: body) =
      if w.1.2 = cStr keyName then some w.2 else findKey keyName body := by
  rw [findKey_cons, writeLine, valueOf_append hw.key.2.2]
  exact if_congr (hw.hasKey_writeLine keyName) rfl rfl

/-- After a write, the lines say its value of its key, and of other keys what
they said. -/
theorem findKey_writeBody (hw : Writable w) (keyName : Text) (body : List Text) :
    findKey keyName (writeBody w body) =
      if w.1.2 = cStr keyName then some w.2 else findKey keyName body := by
  rcases writeBody_cases w body with ⟨before, line, after, rfl, hline, hb, heq⟩ | ⟨-, heq⟩
  · rw [heq, findKey_append, findKey_append, findKey_writeLine_cons hw, findKey_cons]
    split_ifs with hkey hold
    · have hbefore : findKey keyName before = none := findKey_eq_none fun l hl hkeyl => by
        refine hb l hl ?_
        rw [HasKey, hkeyl, ← hkey, cStr_of_not_mem hw.key_null]
      rw [hbefore, Option.none_or]
    · refine absurd ?_ hkey
      rw [← hold, hline, cStr_of_not_mem hw.key_null]
    · rfl
  · rw [heq, findKey_writeLine_cons hw]

/-- Where no line is empty, a lookup is what the lines say. -/
theorem readLines_eq_findKey (hbody : ∀ l ∈ body, l ≠ []) (keyName : Text) :
    readLines keyName body = some (findKey keyName body) := by
  induction body with
  | nil => rfl
  | cons l body ih =>
      obtain ⟨hl, hrest⟩ := List.forall_mem_cons.mp hbody
      rw [readLines, if_neg hl, ih hrest, findKey_cons]
      split_ifs <;> rfl

end

/-! ## A write to blocks

The same, for the first block of the section. -/

/-- The section is there. -/
def Present (blocks : List Block) (appName : Text) : Prop :=
  ∃ b ∈ blocks, cStr b.header = bracketed appName

instance (blocks : List Block) (appName : Text) : Decidable (Present blocks appName) :=
  inferInstanceAs (Decidable (∃ b ∈ blocks, _))

/-- What the sections say of a key, in a part of their lines. -/
def findIn (part : Block → List Text) (blocks : List Block) (p : Text × Text) : Option Text :=
  (blockOf blocks p.1).bind fun b => findKey p.2 (part b)

section

variable {w : KeyWrite} {blocks : List Block} {b : Block} {p : Text × Text}

/-- Sections in brackets are equal where their names are, as C strings. -/
theorem bracketed_inj {appName appName' : Text} :
    bracketed appName = bracketed appName' ↔ cStr appName = cStr appName' := by
  simp [bracketed]

@[simp] theorem findIn_nil (part : Block → List Text) : findIn part [] p = none := rfl

/-- Block by block, the first of the section wins. -/
theorem findIn_cons (part : Block → List Text) (b : Block) (blocks : List Block) :
    findIn part (b :: blocks) p =
      if cStr b.header = bracketed p.1 then findKey p.2 (part b) else findIn part blocks p := by
  rw [findIn, findIn, blockOf, blockOf, List.find?_cons]
  by_cases hname : cStr b.header = bracketed p.1
  · simp [hname]
  · simp [hname]

/-- A section is there where some block is its own. -/
theorem present_cons {appName : Text} :
    Present (b :: blocks) appName ↔ cStr b.header = bracketed appName ∨ Present blocks appName := by
  simp [Present]

/-- The block that a write makes is of the section of the write. -/
theorem Writable.header_new (hw : Writable w) :
    cStr (bracketed w.1.1) = bracketed p.1 ↔ w.1.1 = cStr p.1 := by
  rw [cStr_bracketed, bracketed_inj, cStr_of_not_mem hw.section_null]

/-- A section that is no other's. -/
theorem ne_of_header (hname : cStr b.header ≠ bracketed w.1.1)
    (hhead : cStr b.header = bracketed p.1) : w.1 ≠ (cStr p.1, cStr p.2) := by
  intro heq
  refine hname (hhead.trans (bracketed_inj.mpr ?_))
  rw [heq, cStr_cStr]

/-- A write to a section that is there is what its lines say of the key
afterwards. -/
theorem findIn_body_writeBlocks (hw : Writable w) :
    findIn Block.body (writeBlocks blocks w) p =
      if Present blocks w.1.1 ∧ w.1 = (cStr p.1, cStr p.2) then some w.2
      else findIn Block.body blocks p := by
  induction blocks with
  | nil =>
      rw [writeBlocks, findIn_cons]
      simp [Present]
  | cons b rest ih =>
      simp only [writeBlocks, present_cons, findIn_cons]
      by_cases hname : cStr b.header = bracketed w.1.1
      · simp only [hname, ↓reduceIte, true_or, true_and, findIn_cons, findKey_writeBody hw,
          bracketed_inj, cStr_of_not_mem hw.section_null, Prod.ext_iff]
        split_ifs <;> tauto
      · simp only [hname, ↓reduceIte, false_or, findIn_cons, ih]
        by_cases hhead : cStr b.header = bracketed p.1
        · rw [if_pos hhead, if_pos hhead, if_neg fun h => ne_of_header hname hhead h.2]
        · rw [if_neg hhead, if_neg hhead]

/-- A write to a new section is what the lines that lookups skip say of the key
afterwards. -/
theorem findIn_skipped_writeBlocks (hw : Writable w) :
    findIn Block.skipped (writeBlocks blocks w) p =
      if ¬ Present blocks w.1.1 ∧ w.1 = (cStr p.1, cStr p.2) then some w.2
      else findIn Block.skipped blocks p := by
  induction blocks with
  | nil =>
      have hnone : ¬ Present [] w.1.1 := by simp [Present]
      simp only [writeBlocks, findIn_cons, findKey_writeLine_cons hw, hw.header_new, hnone,
        not_false_eq_true, true_and, Prod.ext_iff, findKey_nil, findIn_nil]
      split_ifs <;> tauto
  | cons b rest ih =>
      simp only [writeBlocks, present_cons, findIn_cons]
      by_cases hname : cStr b.header = bracketed w.1.1
      · simp [hname, findIn_cons]
      · simp only [hname, ↓reduceIte, false_or, findIn_cons, ih]
        by_cases hhead : cStr b.header = bracketed p.1
        · rw [if_pos hhead, if_pos hhead, if_neg fun h => ne_of_header hname hhead h.2]
        · rw [if_neg hhead, if_neg hhead]

/-- A write makes its own section present. -/
theorem present_writeBlocks (hw : Writable w) {appName : Text} :
    Present (writeBlocks blocks w) appName ↔ Present blocks appName ∨ w.1.1 = cStr appName := by
  induction blocks with
  | nil => simp [writeBlocks, Present, bracketed_inj, cStr_of_not_mem hw.section_null]
  | cons b rest ih =>
      rw [writeBlocks]
      split_ifs with hname
      · have hsame : w.1.1 = cStr appName → cStr b.header = bracketed appName := by
          intro heq
          rw [hname, bracketed_inj, cStr_of_not_mem hw.section_null, heq]
        simp only [present_cons]
        tauto
      · rw [present_cons, present_cons, ih, or_assoc]

/-- The lines of the blocks after a write: those before it, and two more. -/
theorem mem_writeBlocks {b' : Block} (h : b' ∈ writeBlocks blocks w) :
    b' ∈ blocks ∨ b' = ⟨bracketed w.1.1, [writeLine w], []⟩ ∨
      ∃ b ∈ blocks, b' = { b with body := writeBody w b.body } := by
  induction blocks with
  | nil =>
      rw [writeBlocks, List.mem_singleton] at h
      exact .inr (.inl h)
  | cons b rest ih =>
      rw [writeBlocks] at h
      split_ifs at h
      · rcases List.mem_cons.mp h with rfl | h
        · exact .inr (.inr ⟨b, List.mem_cons_self, rfl⟩)
        · exact .inl (List.mem_cons_of_mem _ h)
      · rcases List.mem_cons.mp h with rfl | h
        · exact .inl List.mem_cons_self
        · rcases ih h with h | h | ⟨b', hb', rfl⟩
          · exact .inl (List.mem_cons_of_mem _ h)
          · exact .inr (.inl h)
          · exact .inr (.inr ⟨b', List.mem_cons_of_mem _ hb', rfl⟩)

theorem tidy_writeBlocks (hw : Writable w) (h : ∀ b ∈ blocks, b.Tidy) :
    ∀ b ∈ writeBlocks blocks w, b.Tidy := by
  obtain ⟨hhead, hne⟩ := hw.head_writeLine
  intro b' hb'
  rcases mem_writeBlocks hb' with hb | rfl | ⟨b, hb, rfl⟩
  · exact h b' hb
  · exact ⟨⟨rfl, by simpa using hhead, by simp⟩, by simpa using hne⟩
  · obtain ⟨⟨hheader, hskipped, hbody⟩, hnonempty⟩ := h b hb
    refine ⟨⟨hheader, hskipped, fun l hl => ?_⟩, fun l hl => ?_⟩
    · rcases mem_writeBody hl with rfl | hl
      · exact hhead
      · exact hbody l hl
    · rcases List.mem_append.mp hl with hl | hl
      · exact hnonempty l (List.mem_append_left _ hl)
      · rcases mem_writeBody hl with rfl | hl
        · exact hne
        · exact hnonempty l (List.mem_append_right _ hl)

/-- Where no line is empty, a lookup does not throw. -/
theorem readBlocks_eq_findIn (h : ∀ b ∈ blocks, b.Tidy) :
    readBlocks blocks p.1 p.2 = some (findIn Block.body blocks p) := by
  rw [readBlocks, findIn]
  cases hblock : blockOf blocks p.1 with
  | none => rfl
  | some b =>
      have hb := h b (List.mem_of_find?_eq_some hblock)
      exact readLines_eq_findKey (fun l hl => hb.nonempty l (List.mem_append_right _ hl)) p.2

end

/-! ## A write to a reader

Lines, index and numbers of lines. -/

section

variable {w : KeyWrite} {blocks : List Block}

/-- One more line in front, and the index is one further. -/
theorem indexFrom_succ (n : ℕ) (blocks : List Block) :
    indexFrom (n + 1) blocks =
      (indexFrom n blocks).map fun a => { a with index := a.index + 1 } := by
  induction blocks generalizing n with
  | nil => rfl
  | cons b rest ih =>
      rw [indexFrom, indexFrom, List.map_cons, ← ih, Nat.add_right_comm n 1 b.skipped.length,
        Nat.add_right_comm n 1 b.lines.length]

/-- The replacing of one line, by its number. -/
theorem set_middle (front before after rest : List Text) (line new : Text) :
    (front ++ ((before ++ line :: after) ++ rest)).set (front.length + before.length) new =
      front ++ ((before ++ new :: after) ++ rest) := by
  rw [List.set_append_right _ _ (Nat.le_add_right _ _), Nat.add_sub_cancel_left, List.append_assoc,
    List.set_append_right _ _ le_rfl, Nat.sub_self, List.append_assoc]
  rfl

/-- A line in front of those that a lookup reads puts the next sections one line
further. -/
theorem insertLine_render (front : List Text) (b : Block) (rest : List Block) (line : Text) :
    insertLine (render front (b :: rest)) (front.length + b.skipped.length + 1) line =
        render front ({ b with body := line :: b.body } :: rest) ∧
      indexFrom front.length ({ b with body := line :: b.body } :: rest) =
        ⟨b.header, front.length + b.skipped.length⟩ ::
          (indexFrom (front.length + b.lines.length) rest).map
            fun a => { a with index := a.index + 1 } := by
  constructor
  · rw [insertLine, render_cons, List.take_left' (length_front front b),
      List.drop_left' (length_front front b), render_cons]
    rfl
  · rw [← indexFrom_succ, indexFrom]
    simp [Block.lines, Nat.add_assoc]

/-- The loop of a write over the index is a write to the blocks, by induction on
them. -/
theorem writeFrom_indexFrom (hw : Writable w) (hblocks : ∀ b ∈ blocks, b.Tidy)
    (front : List Text) :
    writeFrom (render front blocks) w.1.1 w.1.2 w.2 (indexFrom front.length blocks) =
      if Present blocks w.1.1 then
        .done (indexFrom front.length (writeBlocks blocks w)) (render front (writeBlocks blocks w))
      else .noSection := by
  have hvalue : cStr w.2 = w.2 := cStr_of_not_mem hw.value_null
  induction blocks generalizing front with
  | nil => simp [indexFrom, writeFrom, Present]
  | cons b rest ih =>
      obtain ⟨hb, hrest⟩ := List.forall_mem_cons.mp hblocks
      simp only [indexFrom, writeFrom, cStr_bracketed, writeBlocks, present_cons]
      by_cases hname : cStr b.header = bracketed w.1.1
      · have hdrop : (render front (b :: rest)).drop (front.length + b.skipped.length + 1) =
            b.body ++ rest.flatMap Block.lines := by
          rw [render_cons, List.drop_left' (length_front front b)]
        simp only [hname, ↓reduceIte, true_or, hdrop]
        rcases scan_append w.1.2 hb.wf.body
            (head_flatMap_lines fun b hb => (hrest b hb).wf)
            (front.length + b.skipped.length + 1) with
          ⟨hread, -⟩ | ⟨before, line, after, hbody, hline, hbefore, -, hscan⟩ | ⟨hnone, -, hscan⟩
        · -- No line is empty.
          have hnonempty : ∀ l ∈ b.body, l ≠ [] := fun l hl =>
            hb.nonempty l (List.mem_append_right _ hl)
          rw [readLines_eq_findKey hnonempty] at hread
          cases hread
        · -- The line of the key is replaced.
          rw [hscan, hbody, writeBody_found hline hbefore, render_cons, render_cons]
          simp only [hvalue, hbody]
          congr 1
          · simp [indexFrom, Block.lines, hbody]
          · rw [← length_front]
            exact set_middle _ before after _ line _
        · -- The line comes in front of those that a lookup reads.
          obtain ⟨hlines, hindex⟩ := insertLine_render front b rest (writeLine w)
          rw [writeBody_absent hnone, hscan, ← hlines, hindex]
          split_ifs <;> rfl
      · have hih := ih hrest (front ++ b.lines)
        rw [List.length_append] at hih
        rw [if_neg (Ne.symm hname), render_append, hih]
        simp only [hname, false_or, ↓reduceIte]
        split_ifs
        · simp [indexFrom, render_append]
        · rfl

/-- A write to a section that is not there adds a block. -/
theorem writeBlocks_of_not_present (h : ¬ Present blocks w.1.1) :
    writeBlocks blocks w = blocks ++ [⟨bracketed w.1.1, [writeLine w], []⟩] := by
  induction blocks with
  | nil => rfl
  | cons b rest ih =>
      obtain ⟨hname, hrest⟩ := not_or.mp fun hb => h (present_cons.mpr hb)
      rw [writeBlocks, if_neg hname, ih hrest]
      rfl

/-- The index of one block more. -/
theorem indexFrom_append (n : ℕ) (blocks : List Block) (b : Block) :
    indexFrom n (blocks ++ [b]) = indexFrom n blocks ++
      [⟨b.header, n + (blocks.flatMap Block.lines).length + b.skipped.length⟩] := by
  induction blocks generalizing n with
  | nil => simp [indexFrom]
  | cons b' rest ih =>
      rw [List.cons_append, indexFrom, ih, indexFrom]
      simp [Nat.add_assoc]

/-- **A write to a reader is one to its blocks.**  The answer of the call says
whether the section was there. -/
theorem writeString_reader (hw : Writable w) (hblocks : ∀ b ∈ blocks, b.Tidy)
    (pre : List Text) (f : Option OpenMode) :
    (reader pre blocks f).writeString w.1.1 w.1.2 w.2 =
      some (reader pre (writeBlocks blocks w) f, decide (Present blocks w.1.1)) := by
  have hfrom := writeFrom_indexFrom hw hblocks pre
  rw [writeString, reader, hfrom]
  by_cases hpresent : Present blocks w.1.1
  · simp [hpresent, reader]
  · -- The index of a new section is that of its second line, which becomes a skipped one.
    simp only [hpresent, ↓reduceIte, decide_false, reader, writeBlocks_of_not_present hpresent,
      indexFrom_append, cStr_of_not_mem hw.value_null]
    simp [render, Block.lines, writeLine]
    omega

end

end EstarGo
