import EstarGo.Config.Writes

/-!
# A reader as a store

What a reader says of a key after writes, and what a new reader says of it once
the file has been closed.  A lookup skips the line of the write that opens a
section, until the file has been closed and opened again: then it is the first
of the section.  A file that has been opened for input is not written.

## Main definitions

* `Start`, `writeAll`, `reload` — the runs.
* `KeepsWrites` — lookups answer the last value written, before and after the
  file is closed.
* `Start.Harmless` — the writes that do no harm.

## Main results

* `others_unchanged`: a write leaves the other keys alone, in every run.
* `keepsWrites_iff`: which writes a reader keeps.

## Design notes

**A log of writes.**  The last write to a key is what a store should answer, and
`lastWrite` of a log says it without a reader.  The results compare that with
what the blocks say, first of the reader that has written and then of one that
reads the file.

**Two starts.**  A file that was opened is never written back, so no write may
change what it says.  A file that is saved begins empty, and every section in it
is opened by a write.
-/

namespace EstarGo

open IniReader Verif

/-! ## Runs

A start, writes, and the file once more. -/

/-- How a reader starts: with a file that it opens, or with one that it saves
from nothing.  Both are followed by writes and a `Close`. -/
inductive Start where
  | opened (file : Text)
  | saved
  deriving DecidableEq, Repr

/-- Writes, one after the other; `none` where one throws. -/
def writeAll : IniReader → List KeyWrite → Option IniReader
  | r, [] => some r
  | r, w :: rest => (r.writeString w.1.1 w.1.2 w.2).bind fun x => writeAll x.1 rest

/-- `Close`, and `OpenFile` of the same file, by the same reader.  What the
stream has not written is gone then. -/
def reload (r : IniReader) (file : Text) : IniReader :=
  ((r.close file).1.openFile (r.close file).2).1

namespace Start

/-- The reader after the start. -/
def reader : Start → IniReader
  | opened file => (new.openFile file).1
  | saved => new.saveFile.1

/-- The file after the start: `SaveFile` empties it. -/
def file : Start → Text
  | opened file => file
  | saved => []

/-- A file that is opened has no empty line. -/
def Wf : Start → Prop
  | opened file => ∀ line ∈ getLines file, line ≠ []
  | saved => True

/-- No write to an opened file changes what it says; and the write that opens a
section of a saved one is followed by others of its key, the last of which
writes the same value.  The first is needed at the reload, the second before
it. -/
def Harmless : Start → List KeyWrite → Prop
  | opened file, writes => ∀ p v, lastWrite writes p = some v →
      readBlocks (sections (getLines file)).2 p.1 p.2 = some (some v)
  | saved, writes => ∀ before w after, writes = before ++ w :: after →
      (∀ b ∈ before, b.1.1 ≠ w.1.1) → lastWrite after w.1 = some w.2

end Start

/-- A reader keeps writes: lookups answer the last value written, a write leaves
the other keys alone, and nothing changes when the file is closed and opened
again.  That no write throws is part of each. -/
structure KeepsWrites (start : Start) (writes : List KeyWrite) : Prop where
  readsBack : ∃ r, writeAll start.reader writes = some r ∧
    ∀ p v, lastWrite writes p = some v → ∀ d, r.getString p.1 p.2 d = some v
  frame : ∀ before w after, writes = before ++ w :: after →
    ∃ r r', writeAll start.reader before = some r ∧
      writeAll start.reader (before ++ [w]) = some r' ∧
      ∀ p : Text × Text, (cStr p.1, cStr p.2) ≠ w.1 →
        ∀ d, r'.getString p.1 p.2 d = r.getString p.1 p.2 d
  reloads : ∃ r, writeAll start.reader writes = some r ∧
    ∀ (p : Text × Text) d,
      (reload r start.file).getString p.1 p.2 d = r.getString p.1 p.2 d

/-! ## Runs of blocks

What blocks say after writes, by the writes alone. -/

section

variable {blocks : List Block} {writes before after : List KeyWrite} {w : KeyWrite}
  {p : Text × Text}

/-- Writes to a reader are writes to its blocks, one after the other. -/
theorem writeAll_reader (hwrites : ∀ w ∈ writes, Writable w) (hblocks : ∀ b ∈ blocks, b.Tidy)
    (pre : List Text) (f : Option OpenMode) :
    writeAll (reader pre blocks f) writes = some (reader pre (writes.foldl writeBlocks blocks) f) ∧
      ∀ b ∈ writes.foldl writeBlocks blocks, b.Tidy := by
  induction writes generalizing blocks with
  | nil => exact ⟨rfl, hblocks⟩
  | cons w rest ih =>
      obtain ⟨hw, hrest⟩ := List.forall_mem_cons.mp hwrites
      rw [writeAll, writeString_reader hw hblocks, Option.bind_some]
      exact ih hrest (tidy_writeBlocks hw hblocks)

/-- A lookup is what the blocks say. -/
theorem getString_eq_findIn (hblocks : ∀ b ∈ blocks, b.Tidy) (pre : List Text)
    (f : Option OpenMode) (p : Text × Text) (d : Text) :
    (reader pre blocks f).getString p.1 p.2 d = some ((findIn Block.body blocks p).getD d) := by
  rw [getString_reader fun b hb => (hblocks b hb).wf, readBlocks_eq_findIn hblocks,
    Option.map_some]

/-- A section is looked for by its C string. -/
theorem present_cStr {appName : Text} : Present blocks (cStr appName) ↔ Present blocks appName := by
  simp [Present, bracketed]

theorem findKey_cStr (keyName : Text) (body : List Text) :
    findKey (cStr keyName) body = findKey keyName body := by
  induction body with
  | nil => rfl
  | cons line rest ih =>
      rw [findKey_cons, findKey_cons, ih]
      exact if_congr (by rw [HasKey, cStr_cStr, HasKey]) rfl rfl

theorem findIn_cStr (part : Block → List Text) :
    findIn part blocks (cStr p.1, cStr p.2) = findIn part blocks p := by
  induction blocks with
  | nil => rfl
  | cons b rest ih =>
      rw [findIn_cons, findIn_cons, ih, findKey_cStr]
      exact if_congr (by rw [bracketed, cStr_cStr, bracketed]) rfl rfl

/-- A section that is not there says nothing. -/
theorem findIn_of_not_present (part : Block → List Text) (h : ¬ Present blocks p.1) :
    findIn part blocks p = none := by
  have hfind : blockOf blocks p.1 = none :=
    List.find?_eq_none.mpr fun b hb => by simpa using fun hname => h ⟨b, hb, hname⟩
  rw [findIn, hfind, Option.bind_none]

/-- A section that is there takes every write. -/
theorem findIn_body_of_present (hwrites : ∀ w ∈ writes, Writable w) (h : Present blocks p.1) :
    findIn Block.body (writes.foldl writeBlocks blocks) p =
      (lastWrite writes (cStr p.1, cStr p.2)).or (findIn Block.body blocks p) := by
  have hstep : ∀ bs, ∀ w ∈ writes, Present bs p.1 → Present (writeBlocks bs w) p.1 ∧
      findIn Block.body (writeBlocks bs w) p =
        if w.1 = (cStr p.1, cStr p.2) then some w.2 else findIn Block.body bs p := by
    intro bs w hmem hbs
    have hw := hwrites w hmem
    refine ⟨(present_writeBlocks hw).mpr (.inl hbs), ?_⟩
    rw [findIn_body_writeBlocks hw]
    refine if_congr (and_iff_right_of_imp fun heq => ?_) rfl rfl
    rw [heq]
    exact present_cStr.mpr hbs
  exact look_foldl (fun bs => findIn Block.body bs p) (fun bs => Present bs p.1) hstep h

theorem findIn_skipped_of_present (hwrites : ∀ w ∈ writes, Writable w)
    (h : Present blocks p.1) :
    findIn Block.skipped (writes.foldl writeBlocks blocks) p =
      findIn Block.skipped blocks p := by
  induction writes generalizing blocks with
  | nil => rfl
  | cons w rest ih =>
      obtain ⟨hw, hrest⟩ := List.forall_mem_cons.mp hwrites
      rw [List.foldl_cons, ih hrest ((present_writeBlocks hw).mpr (.inl h)),
        findIn_skipped_writeBlocks hw, if_neg]
      rintro ⟨hnot, heq⟩
      rw [heq] at hnot
      exact hnot (present_cStr.mpr h)

/-- Writes to other sections do not open it. -/
theorem not_present_foldl (hwrites : ∀ w ∈ writes, Writable w)
    (hother : ∀ w ∈ writes, w.1.1 ≠ cStr p.1) (h : ¬ Present blocks p.1) :
    ¬ Present (writes.foldl writeBlocks blocks) p.1 := by
  induction writes generalizing blocks with
  | nil => exact h
  | cons w rest ih =>
      obtain ⟨hw, hrest⟩ := List.forall_mem_cons.mp hwrites
      obtain ⟨hne, hothers⟩ := List.forall_mem_cons.mp hother
      refine ih hrest hothers fun hpresent => ?_
      exact ((present_writeBlocks hw).mp hpresent).elim h hne

/-- A section that is opened by a write takes those that follow it, and skips
its line. -/
theorem findIn_of_first (hwrites : ∀ b ∈ before ++ w :: after, Writable b)
    (h : ¬ Present blocks p.1) (hw : w.1.1 = cStr p.1)
    (hbefore : ∀ b ∈ before, b.1.1 ≠ cStr p.1) :
    findIn Block.body ((before ++ w :: after).foldl writeBlocks blocks) p =
        lastWrite after (cStr p.1, cStr p.2) ∧
      findIn Block.skipped ((before ++ w :: after).foldl writeBlocks blocks) p =
        if w.1 = (cStr p.1, cStr p.2) then some w.2 else none := by
  have hwbefore : ∀ b ∈ before, Writable b := fun b hb =>
    hwrites b (List.mem_append_left _ hb)
  have hwrest : ∀ b ∈ w :: after, Writable b := fun b hb =>
    hwrites b (List.mem_append_right _ hb)
  obtain ⟨hww, hwafter⟩ := List.forall_mem_cons.mp hwrest
  have hnot := not_present_foldl hwbefore hbefore h
  have hnot' : ¬ Present (before.foldl writeBlocks blocks) w.1.1 := by
    rw [hw, present_cStr]
    exact hnot
  have hpresent : Present (writeBlocks (before.foldl writeBlocks blocks) w) p.1 :=
    (present_writeBlocks hww).mpr (.inr hw)
  rw [List.foldl_append, List.foldl_cons, findIn_body_of_present hwafter hpresent,
    findIn_skipped_of_present hwafter hpresent, findIn_body_writeBlocks hww,
    findIn_skipped_writeBlocks hww, findIn_of_not_present _ hnot, findIn_of_not_present _ hnot,
    if_neg fun h => hnot' h.1, Option.or_none]
  exact ⟨rfl, if_congr (and_iff_right hnot') rfl rfl⟩

end

/-! ## Closing and opening again

What is in the file, and how it is read. -/

section

variable {blocks : List Block} {writes : List KeyWrite} {p : Text × Text}

/-- A line that is written to a file as it is. -/
def Clean (line : Text) : Prop := '\n' ∉ line ∧ Char.ofNat 0 ∉ line

/-- The lines of a write are such lines. -/
theorem Writable.clean {w : KeyWrite} (hw : Writable w) :
    Clean (writeLine w) ∧ Clean (bracketed w.1.1) := by
  obtain ⟨hsection, hkey, hvalue⟩ := hw.line
  refine ⟨⟨?_, ?_⟩, ?_, ?_⟩
  · simp [writeLine, hkey, hvalue]
  · simp [writeLine, hw.key_null, hw.value_null]
  · rw [bracketed, cStr_of_not_mem hw.section_null]
    simp [hsection]
  · rw [bracketed, cStr_of_not_mem hw.section_null]
    simp [hw.section_null]

/-- So the blocks after writes have none but such lines. -/
theorem clean_foldl (hwrites : ∀ w ∈ writes, Writable w)
    (hblocks : ∀ b ∈ blocks, ∀ line ∈ b.lines, Clean line) :
    ∀ b ∈ writes.foldl writeBlocks blocks, ∀ line ∈ b.lines, Clean line := by
  induction writes generalizing blocks with
  | nil => exact hblocks
  | cons w rest ih =>
      obtain ⟨hw, hrest⟩ := List.forall_mem_cons.mp hwrites
      refine ih hrest fun b' hb' line hline => ?_
      rcases mem_writeBlocks hb' with hb | rfl | ⟨b, hb, rfl⟩
      · exact hblocks b' hb line hline
      · rcases List.mem_cons.mp hline with rfl | hline
        · exact hw.clean.2
        · obtain rfl : line = writeLine w := by simpa using hline
          exact hw.clean.1
      · rw [Block.lines, List.mem_cons, List.mem_append] at hline
        rcases hline with rfl | hline | hline
        · exact hblocks b hb _ (by simp [Block.lines])
        · exact hblocks b hb _ (by simp [Block.lines, hline])
        · rcases mem_writeBody hline with rfl | hline
          · exact hw.clean.1
          · exact hblocks b hb _ (by simp [Block.lines, hline])

/-- A new reader reads what lookups skipped, before the rest. -/
theorem findIn_map_reread :
    findIn Block.body (blocks.map Block.reread) p =
      (findIn Block.skipped blocks p).or (findIn Block.body blocks p) := by
  induction blocks with
  | nil => rfl
  | cons b rest ih =>
      rw [List.map_cons, findIn_cons, findIn_cons, findIn_cons, ih, Block.reread, findKey_append]
      split_ifs <;> rfl

/-- A saved file is read with the lines that lookups skipped. -/
theorem getString_reload_saved (hclean : ∀ b ∈ blocks, ∀ line ∈ b.lines, Clean line)
    (hblocks : ∀ b ∈ blocks, b.Tidy) (p : Text × Text) (d : Text) :
    (reload (reader [] blocks (some .output)) []).getString p.1 p.2 d =
      some (((findIn Block.skipped blocks p).or (findIn Block.body blocks p)).getD d) := by
  have hlines : ∀ line ∈ render [] blocks, Clean line := by
    intro line hline
    obtain ⟨b, hb, hline⟩ := List.mem_flatMap.mp hline
    exact hclean b hb line hline
  have hwritten : (reader [] blocks (some .output)).written [] =
      (render [] blocks).flatMap fun line => line ++ ['\n'] := by
    have hout : (reader [] blocks (some .output)).f = some .output := rfl
    rw [written, if_pos hout]
    refine List.flatMap_congr fun line hline => ?_
    rw [cStr_of_not_mem (hlines line hline).2]
  have hfile : sections (getLines ((reader [] blocks (some .output)).written [])) =
      ([], blocks.map Block.reread) := by
    rw [hwritten, getLines_flatMap fun line hline => (hlines line hline).1]
    exact sections_render (by simp) fun b hb => (hblocks b hb).wf
  have htidy : ∀ b ∈ blocks.map Block.reread, b.Tidy := by
    intro b' hb'
    obtain ⟨b, hb, rfl⟩ := List.mem_map.mp hb'
    obtain ⟨⟨hheader, hskipped, hbody⟩, hnonempty⟩ := hblocks b hb
    refine ⟨⟨hheader, by simp [Block.reread], fun line hline => ?_⟩, hnonempty⟩
    exact (List.mem_append.mp hline).elim (hskipped line) (hbody line)
  have hread := getString_openFile ((reader [] blocks (some .output)).written []) p.1 p.2 d
  rw [hfile, readBlocks_eq_findIn htidy, findIn_map_reread] at hread
  exact hread

end

/-! ## What a start says

The blocks before any write. -/

namespace Start

/-- The blocks of a reader after its start. -/
def blocks : Start → List Block
  | opened file => (sections (getLines file)).2
  | saved => []

/-- What a new reader of the closed file says. -/
def reread (start : Start) (writes : List KeyWrite) (p : Text × Text) : Option Text :=
  let hidden := findIn Block.skipped (writes.foldl writeBlocks start.blocks) p
  let value := findIn Block.body (writes.foldl writeBlocks start.blocks) p
  if start = saved then hidden.or value else findIn Block.body start.blocks p

variable {start : Start}

/-- The blocks after a start are tidy. -/
theorem tidy_blocks (hstart : start.Wf) : ∀ b ∈ start.blocks, b.Tidy := by
  cases start with
  | saved => simp [blocks]
  | opened file =>
      intro b hb
      obtain ⟨hwf, hskipped⟩ := (sections_wf (getLines file)).2 b hb
      refine ⟨hwf, fun line hline => hstart line ?_⟩
      rw [← render_sections (getLines file), render, List.mem_append, List.mem_flatMap]
      exact .inr ⟨b, hb, List.mem_cons_of_mem _ hline⟩

/-- The reader after a start is one of its blocks. -/
theorem reader_eq (start : Start) :
    ∃ pre f, start.reader = EstarGo.reader pre start.blocks f ∧
      (start = saved → pre = [] ∧ f = some .output) ∧
      (start ≠ saved → f ≠ some .output) := by
  cases start with
  | saved => exact ⟨[], some .output, rfl, by simp, by simp⟩
  | opened file =>
      rw [reader, openFile_eq, blocks]
      split_ifs with hnone
      · exact ⟨[], none, by rw [hnone], by simp, by simp⟩
      · exact ⟨_, some .input, rfl, by simp, by simp⟩

end Start

/-! ## Which writes are kept

Start by start, and then both. -/

section

variable {start : Start} {writes : List KeyWrite} {p : Text × Text}

/-- What a reader says of a key after writes. -/
def valueAfter (start : Start) (writes : List KeyWrite) : Text × Text → Option Text :=
  findIn Block.body (writes.foldl writeBlocks start.blocks)

/-- Two answers that agree for every default are equal. -/
theorem eq_of_getD {o o' : Option Text} (h : ∀ d, o.getD d = o'.getD d) : o = o' := by
  cases o with
  | none =>
      cases o' with
      | none => rfl
      | some v' =>
          obtain ⟨d, hd⟩ := exists_ne v'
          exact absurd (h d) hd
  | some v =>
      cases o' with
      | none =>
          obtain ⟨d, hd⟩ := exists_ne v
          exact absurd (h d).symm hd
      | some v' => exact congrArg some (h v)

/-- The reader after writes, and what it says; the reader of the closed file,
and what it says. -/
theorem exists_writeAll (hstart : start.Wf) (hwrites : ∀ w ∈ writes, Writable w) :
    ∃ r, writeAll start.reader writes = some r ∧
      (∀ (p : Text × Text) d,
        r.getString p.1 p.2 d = some ((valueAfter start writes p).getD d)) ∧
      ∀ (p : Text × Text) d, (reload r start.file).getString p.1 p.2 d =
        some ((start.reread writes p).getD d) := by
  obtain ⟨pre, f, hreader, hsaved, hopened⟩ := start.reader_eq
  have htidy := start.tidy_blocks hstart
  obtain ⟨hrun, hblocks⟩ := writeAll_reader hwrites htidy pre f
  refine ⟨_, hreader ▸ hrun, getString_eq_findIn hblocks pre f, fun p d => ?_⟩
  cases start with
  | saved =>
      obtain ⟨rfl, rfl⟩ := hsaved rfl
      have hclean : ∀ b ∈ writes.foldl writeBlocks Start.saved.blocks, ∀ line ∈ b.lines,
          Clean line := clean_foldl hwrites (by simp [Start.blocks])
      rw [Start.reread, if_pos rfl]
      exact getString_reload_saved hclean hblocks p d
  | opened file =>
      have hinput : f ≠ some .output := hopened (by simp)
      have hclose : ∀ bs, reload (reader pre bs f) file = (new.openFile file).1 := by
        intro bs
        have hout : (reader pre bs f).f ≠ some .output := hinput
        rw [reload, close, written, if_neg hout]
        rfl
      rw [Start.file, hclose, getString_openFile, Start.reread, if_neg (by simp)]
      exact congrArg _ (readBlocks_eq_findIn htidy)

/-- A write is no other key's, in every run. -/
theorem others_unchanged {before : List KeyWrite} {w : KeyWrite} (hstart : start.Wf)
    (hbefore : ∀ b ∈ before, Writable b) (hw : Writable w) :
    ∃ r r', writeAll start.reader before = some r ∧
      writeAll start.reader (before ++ [w]) = some r' ∧
      ∀ p : Text × Text, (cStr p.1, cStr p.2) ≠ w.1 →
        ∀ d, r'.getString p.1 p.2 d = r.getString p.1 p.2 d := by
  have hthis : ∀ b ∈ before ++ [w], Writable b := by
    intro b hb
    rcases List.mem_append.mp hb with hb | hb
    · exact hbefore b hb
    · obtain rfl := List.mem_singleton.mp hb
      exact hw
  obtain ⟨r, hrun, hvalue, -⟩ := exists_writeAll hstart hbefore
  obtain ⟨r', hrun', hvalue', -⟩ := exists_writeAll hstart hthis
  refine ⟨r, r', hrun, hrun', fun p hne d => ?_⟩
  rw [hvalue, hvalue', valueAfter, valueAfter, List.foldl_append, List.foldl_cons,
    List.foldl_nil, findIn_body_writeBlocks hw, if_neg fun h => hne h.2.symm]

/-- Runs of a reader in terms of what its blocks say. -/
theorem keepsWrites_iff_values (hstart : start.Wf) (hwrites : ∀ w ∈ writes, Writable w) :
    KeepsWrites start writes ↔
      (∀ p v, lastWrite writes p = some v → valueAfter start writes p = some v) ∧
        ∀ p, start.reread writes p = valueAfter start writes p := by
  obtain ⟨r, hrun, hvalue, hreread⟩ := exists_writeAll hstart hwrites
  constructor
  · rintro ⟨⟨r', hrun', hback⟩, -, ⟨r'', hrun'', hreload⟩⟩
    obtain rfl := Option.some.inj (hrun.symm.trans hrun')
    obtain rfl := Option.some.inj (hrun.symm.trans hrun'')
    refine ⟨fun p v hlast => eq_of_getD fun d => ?_, fun p => eq_of_getD fun d => ?_⟩
    · have hd := hback p v hlast d
      rw [hvalue] at hd
      exact Option.some.inj hd
    · have hd := hreload p d
      rw [hvalue, hreread] at hd
      exact Option.some.inj hd
  · rintro ⟨hback, hreload⟩
    refine ⟨⟨r, hrun, fun p v hlast d => ?_⟩, ?_, r, hrun, fun p d => ?_⟩
    · rw [hvalue, hback p v hlast, Option.getD_some]
    · rintro before w after rfl
      exact others_unchanged hstart (fun b hb => hwrites b (List.mem_append_left _ hb))
        (hwrites w (by simp))
    · rw [hreread, hvalue, hreload p]

/-- A lookup in an opened file is what its blocks say. -/
theorem readBlocks_opened {file : Text} (hstart : (Start.opened file).Wf) {v : Text} :
    readBlocks (sections (getLines file)).2 p.1 p.2 = some (some v) ↔
      findIn Block.body (Start.opened file).blocks p = some v := by
  have hread : readBlocks (sections (getLines file)).2 p.1 p.2 =
      some (findIn Block.body (Start.opened file).blocks p) :=
    readBlocks_eq_findIn ((Start.opened file).tidy_blocks hstart)
  rw [hread, Option.some_inj]

/-- Harmless writes leave what an opened file says. -/
theorem valueAfter_of_harmless {file : Text} (hstart : (Start.opened file).Wf)
    (hwrites : ∀ w ∈ writes, Writable w) (h : (Start.opened file).Harmless writes)
    (p : Text × Text) :
    valueAfter (.opened file) writes p = findIn Block.body (Start.opened file).blocks p := by
  by_cases hpresent : Present (Start.opened file).blocks p.1
  · rw [valueAfter, findIn_body_of_present hwrites hpresent]
    cases hlast : lastWrite writes (cStr p.1, cStr p.2) with
    | none => rfl
    | some v =>
        rw [← findIn_cStr, (readBlocks_opened hstart).mp (h _ v hlast)]
        rfl
  · -- No write is to a section that the file does not have.
    have hother : ∀ w ∈ writes, w.1.1 ≠ cStr p.1 := by
      intro w hmem heq
      obtain ⟨v, hlast⟩ := exists_lastWrite hmem
      have hw := (readBlocks_opened hstart).mp (h _ v hlast)
      rw [findIn_of_not_present] at hw
      · cases hw
      · rw [heq, present_cStr]
        exact hpresent
    rw [valueAfter, findIn_of_not_present _ (not_present_foldl hwrites hother hpresent),
      findIn_of_not_present _ hpresent]

/-- **An opened file** keeps the writes that change nothing it says.  Lookups
before the reload are right in any case; the file on the disk is the old one. -/
theorem keeps_opened {file : Text} (hstart : (Start.opened file).Wf)
    (hwrites : ∀ w ∈ writes, Writable w) :
    KeepsWrites (.opened file) writes ↔ (Start.opened file).Harmless writes := by
  have hreread : ∀ p, (Start.opened file).reread writes p =
      findIn Block.body (Start.opened file).blocks p := by
    intro p
    rw [Start.reread, if_neg (by simp)]
  rw [keepsWrites_iff_values hstart hwrites]
  constructor
  · rintro ⟨hback, hreload⟩ p v hlast
    rw [readBlocks_opened hstart, ← hreread p, hreload p, hback p v hlast]
  · intro h
    refine ⟨fun p v hlast => ?_, fun p => ?_⟩
    · rw [valueAfter_of_harmless hstart hwrites h, ← readBlocks_opened hstart]
      exact h p v hlast
    · rw [hreread, valueAfter_of_harmless hstart hwrites h]

/-- The names of a write are C strings. -/
theorem Writable.cStr_pair {w : KeyWrite} (hw : Writable w) : (cStr w.1.1, cStr w.1.2) = w.1 := by
  rw [cStr_of_not_mem hw.section_null, cStr_of_not_mem hw.key_null]

/-- A saved file begins without sections. -/
theorem not_present_saved (p : Text × Text) : ¬ Present Start.saved.blocks p.1 := by
  simp [Present, Start.blocks]

theorem reread_saved (writes : List KeyWrite) (p : Text × Text) :
    Start.saved.reread writes p =
      (findIn Block.skipped (writes.foldl writeBlocks Start.saved.blocks) p).or
        (valueAfter .saved writes p) := by
  rw [Start.reread, if_pos rfl, valueAfter]

/-- What a saved file says of a key of a section that a write opens: before it
is closed, and when it is opened again. -/
theorem saved_of_first {before after : List KeyWrite} {w : KeyWrite}
    (hwrites : ∀ b ∈ before ++ w :: after, Writable b) (hw : w.1.1 = cStr p.1)
    (hbefore : ∀ b ∈ before, b.1.1 ≠ cStr p.1) :
    valueAfter .saved (before ++ w :: after) p = lastWrite after (cStr p.1, cStr p.2) ∧
      Start.saved.reread (before ++ w :: after) p =
        (if w.1 = (cStr p.1, cStr p.2) then some w.2 else none).or
          (lastWrite after (cStr p.1, cStr p.2)) := by
  obtain ⟨hvalue, hhidden⟩ := findIn_of_first hwrites (not_present_saved p) hw hbefore
  refine ⟨hvalue, ?_⟩
  rw [reread_saved, hhidden, valueAfter, hvalue]

/-- The last write to the key of a section that a write opens, where it is
harmless, comes later. -/
theorem lastWrite_of_first {before after : List KeyWrite} {w : KeyWrite} {v : Text}
    (hother : ∀ b ∈ before, b.1 ≠ p) (hlater : w.1 = p → lastWrite after p = some w.2)
    (hlast : lastWrite (before ++ w :: after) p = some v) : lastWrite after p = some v := by
  rw [lastWrite_append, lastWrite_cons, lastWrite_eq_none hother, Option.or_none] at hlast
  by_cases hsame : w.1 = p
  · rw [hlater hsame] at hlast ⊢
    exact hlast
  · rw [if_neg hsame, Option.or_none] at hlast
    exact hlast

/-- **A saved file** keeps the writes that open no section, but for those that
are repeated.  The line of the first write of a section is one that lookups
skip, until the file is opened again. -/
theorem keeps_saved (hwrites : ∀ w ∈ writes, Writable w) :
    KeepsWrites .saved writes ↔ Start.saved.Harmless writes := by
  have hstart : Start.saved.Wf := trivial
  rw [keepsWrites_iff_values hstart hwrites, Start.Harmless]
  constructor
  · rintro ⟨-, hreload⟩ before w after rfl hfirst
    have hpair := (hwrites w (by simp)).cStr_pair
    have hsection : cStr w.1.1 = w.1.1 := congrArg Prod.fst hpair
    obtain ⟨hvalue, hreread⟩ := saved_of_first (p := w.1) hwrites hsection.symm
      (by rw [hsection]; exact hfirst)
    rw [hpair] at hvalue hreread
    have hsame := hreload w.1
    rw [hreread, hvalue, if_pos rfl, Option.some_or] at hsame
    exact hsame.symm
  · intro h
    have hcases : ∀ p : Text × Text, (∀ w ∈ writes, w.1.1 ≠ cStr p.1) ∨
        ∃ before w after, writes = before ++ w :: after ∧ w.1.1 = cStr p.1 ∧
          ∀ b ∈ before, b.1.1 ≠ cStr p.1 := fun p =>
      exists_first (fun w : KeyWrite => w.1.1 = cStr p.1) writes
    refine ⟨fun p v hlast => ?_, fun p => ?_⟩
    · have hp : ∃ w ∈ writes, w.1 = p := by
        by_contra hnone
        rw [lastWrite_eq_none fun w hw heq => hnone ⟨w, hw, heq⟩] at hlast
        cases hlast
      obtain ⟨w', hmem, rfl⟩ := hp
      have hpair := (hwrites w' hmem).cStr_pair
      have hsection : cStr w'.1.1 = w'.1.1 := congrArg Prod.fst hpair
      rcases hcases w'.1 with hother | ⟨before, w, after, rfl, hw, hfirst⟩
      · exact absurd hsection.symm (hother w' hmem)
      · rw [(saved_of_first hwrites hw hfirst).1, hpair]
        refine lastWrite_of_first (fun b hb heq => hfirst b hb ?_) (fun heq => ?_) hlast
        · rw [heq, hsection]
        · rw [← heq]
          exact h before w after rfl (by rw [hw]; exact hfirst)
    · rcases hcases p with hother | ⟨before, w, after, rfl, hw, hfirst⟩
      · have hnot := not_present_foldl hwrites hother (not_present_saved p)
        rw [reread_saved, findIn_of_not_present _ hnot, Option.none_or]
      · obtain ⟨hvalue, hreread⟩ := saved_of_first hwrites hw hfirst
        rw [hvalue, hreread]
        split_ifs with hsame
        · rw [← hsame, h before w after rfl (by rw [hw]; exact hfirst), Option.some_or]
        · rw [Option.none_or]

/-- **Which writes a reader keeps.** Those to an opened file must change nothing
that it says.  In a saved one, the write that opens a section must be followed
by others of its key, the last of which writes the same value. -/
theorem keepsWrites_iff (hstart : start.Wf) (hwrites : ∀ w ∈ writes, Writable w) :
    KeepsWrites start writes ↔ start.Harmless writes := by
  cases start with
  | opened file => exact keeps_opened hstart hwrites
  | saved => exact keeps_saved hwrites

/-- The write of `k = v` to a section `[S]`. -/
def firstWrite : KeyWrite := ((['S'], ['k']), ['v'])

theorem firstWrite_writable : Writable firstWrite :=
  ⟨by decide, by decide, by decide, by decide, by decide⟩

/-- Written twice, it is kept: the second write finds the section, not the line,
and puts one of its own where lookups see it. -/
theorem keepsWrites_iff_twice : KeepsWrites .saved [firstWrite, firstWrite] := by
  have hstart : Start.saved.Wf := trivial
  refine (keepsWrites_iff hstart (by simpa using firstWrite_writable)).mpr ?_
  intro before w after heq hfirst
  cases before with
  | nil =>
      obtain ⟨rfl, rfl⟩ := List.cons.inj heq
      decide
  | cons b rest =>
      obtain ⟨rfl, hrest⟩ := List.cons.inj heq
      obtain rfl : w = firstWrite := by
        have hmem : w ∈ [firstWrite] := hrest ▸ List.mem_append_right rest List.mem_cons_self
        simpa using hmem
      exact absurd rfl (hfirst firstWrite List.mem_cons_self)

/-- The first write to a section of a saved file is not read back: the index of
the new section points to this very line. -/
theorem not_keepsWrites :
    ¬ ∀ (start : Start) (writes : List KeyWrite), start.Wf →
      (∀ w ∈ writes, Writable w ∧ '=' ∉ w.1.1 ∧ ']' ∉ w.1.1 ∧ ']' ∉ w.1.2) →
        KeepsWrites start writes := by
  intro h
  have hwrites : ∀ w ∈ [firstWrite], Writable w ∧ '=' ∉ w.1.1 ∧ ']' ∉ w.1.1 ∧ ']' ∉ w.1.2 := by
    intro w hw
    obtain rfl := List.mem_singleton.mp hw
    exact ⟨firstWrite_writable, by decide, by decide, by decide⟩
  obtain ⟨r, hrun, hback⟩ := (h .saved [firstWrite] trivial hwrites).readsBack
  obtain rfl : IniReader.mk [⟨['[', 'S', ']'], 1⟩] [['[', 'S', ']'], ['k', '=', 'v']]
      (some .output) = r := Option.some.inj ((by decide : _ = _).symm.trans hrun)
  have hread := hback (['S'], ['k']) ['v'] (by decide) []
  exact absurd hread (by decide)

end

end EstarGo
