import HashHush.Ini
import Mathlib.Data.Nat.Digits.Lemmas

/-!
# What the configuration file says

A file is written as lines: headings, settings, and notes between them.  The parser hands exactly
these settings to its handler, each with its section, as long as every line is well formed, which
says what a C string, a buffer of 4096 bytes and the comments within a line ask for
(`parseFile_written`).  So a configuration that is written out is read back, whatever else stands in
the file and whatever was configured before (`settings_read_back`).

For files of any content, `setting_spec` says what a setting is worth that occurs any number of
times: the occurrences of a text are joined, and the first that is not empty decides a number.
-/

namespace HashHush.Ini

open Captcha (isSpace isDigit)

/-! ## Files that are written -/

/-- A line as it is meant. -/
inductive Line
  | note (text : Str)
  | heading (name : Str)
  /-- A setting, with blanks before and after the sign. -/
  | setting (name before after value : Str)

/-- The line as it stands in the file. -/
def Line.text : Line → Str
  | note text => text
  | heading name => opening :: (name ++ [closing])
  | setting name before after value => name ++ before ++ equals :: (after ++ value)

/-- No semicolon follows a blank. -/
def Commentless (s : Str) : Prop := s.IsChain fun a b => ¬ (isSpace a = true ∧ b = semicolon)

/-- No blanks at the ends. -/
def Trimmed (s : Str) : Prop :=
  (∀ c ∈ s.head?, isSpace c = false) ∧ ∀ c ∈ s.getLast?, isSpace c = false

/-- What a heading, a setting or a note has to look like. -/
def Line.Legible : Line → Prop
  | note text => lskip text = [] ∨ (lskip text).head? = some semicolon ∨ (lskip text).head? = some hash
  | heading name => closing ∉ name ∧ Commentless name ∧ name.length < maxSection
  | setting name before after value => name ≠ [] ∧ Trimmed name ∧ Commentless name ∧
      equals ∉ name ∧ Captcha.colon ∉ name ∧
      (∀ c ∈ name.head?, c ≠ opening ∧ c ≠ semicolon ∧ c ≠ hash) ∧
      ¬ bom <+: name ∧ (∀ c ∈ before, isSpace c = true) ∧
      (∀ c ∈ after, isSpace c = true) ∧ Trimmed value ∧ Commentless (after ++ value)

instance : DecidablePred Commentless := fun _ => inferInstanceAs (Decidable (List.IsChain _ _))

instance : DecidablePred Trimmed := fun _ => inferInstanceAs (Decidable (_ ∧ _))

instance : DecidablePred Line.Legible
  | .note _ => inferInstanceAs (Decidable (_ ∨ _ ∨ _))
  | .heading _ => inferInstanceAs (Decidable (_ ∧ _ ∧ _))
  | .setting _ _ _ _ => inferInstanceAs
      (Decidable (_ ∧ _ ∧ _ ∧ _ ∧ _ ∧ _ ∧ _ ∧ _ ∧ _ ∧ _ ∧ _))

/-- A line that is read as it is meant. -/
structure Line.WellFormed (l : Line) : Prop where
  zero_notMem : 0 ∉ l.text
  newline_notMem : newline ∉ l.text
  fits : l.text.length + 2 ≤ maxLine
  legible : l.Legible

instance : DecidablePred Line.WellFormed := fun l =>
  decidable_of_iff (0 ∉ l.text ∧ newline ∉ l.text ∧ l.text.length + 2 ≤ maxLine ∧ l.Legible)
    ⟨fun ⟨hz, hn, hf, hl⟩ => ⟨hz, hn, hf, hl⟩, fun ⟨hz, hn, hf, hl⟩ => ⟨hz, hn, hf, hl⟩⟩

/-- The file. -/
def written (lines : List Line) : Str := lines.flatMap fun l => l.text ++ [newline]

/-- The settings in the file, each with its section. -/
def entries (sectionName : Str) : List Line → List (Str × Str × Str)
  | [] => []
  | .note _ :: ls => entries sectionName ls
  | .heading name :: ls => entries name ls
  | .setting name _ _ value :: ls => (sectionName, name, value) :: entries sectionName ls

/-! ## Lines -/

lemma fgetsLines_line {text : Str} (hnl : newline ∉ text) {line : Str}
    (hlen : line.length + text.length + 2 ≤ maxLine) (rest : Str) :
    fgetsLines maxLine line (text ++ newline :: rest)
      = (line ++ text ++ [newline]) :: fgetsLines maxLine [] rest := by
  induction text generalizing line with
  | nil => simp [fgetsLines]
  | cons c text ih =>
      obtain ⟨hc, hnl⟩ : newline ≠ c ∧ newline ∉ text := by simpa using hnl
      rw [List.length_cons] at hlen
      rw [List.cons_append, fgetsLines, if_neg, ih hnl]
      · simp
      · rw [List.length_append, List.length_singleton]
        omega
      · rintro (heq | hfull)
        · exact hc heq.symm
        · omega

/-- The parser sees the lines that were written. -/
lemma fgetsLines_written {lines : List Line} (hw : ∀ l ∈ lines, l.WellFormed) :
    fgetsLines maxLine [] (written lines) = lines.map fun l => l.text ++ [newline] := by
  induction lines with
  | nil => rfl
  | cons l ls ih =>
      have hl := hw l List.mem_cons_self
      have hcons : written (l :: ls) = l.text ++ newline :: written ls := by simp [written]
      rw [hcons, fgetsLines_line hl.newline_notMem (by simpa using hl.fits),
        ih fun k hk => hw k (List.mem_cons_of_mem _ hk)]
      rfl

/-! ## The helpers -/

lemma isSpace_newline : isSpace newline = true := rfl

lemma rstrip_append_cons {a b : Str} {c : UInt8} (hc : isSpace c = false) :
    rstrip (a ++ c :: b) = a ++ c :: rstrip b := by
  induction b using List.reverseRecOn with
  | nil =>
      rw [rstrip, rstrip, List.rdropWhile_nil]
      exact List.rdropWhile_concat_neg _ _ _ (by simp [hc])
  | append_singleton b x ih =>
      have hassoc : a ++ c :: (b ++ [x]) = (a ++ c :: b) ++ [x] := by simp
      rw [rstrip] at ih ⊢
      rw [rstrip, hassoc, List.rdropWhile_concat, List.rdropWhile_concat]
      split
      · exact ih
      · simp

lemma rstrip_append_blanks {a b : Str} (hb : ∀ c ∈ b, isSpace c = true) :
    rstrip (a ++ b) = rstrip a := by
  induction b using List.reverseRecOn with
  | nil => rw [List.append_nil]
  | append_singleton b c ih =>
      rw [← List.append_assoc, rstrip, List.rdropWhile_concat_pos _ _ _ (hb c (by simp))]
      exact ih fun d hd => hb d (List.mem_append_left _ hd)

lemma lskip_blanks_append {a b : Str} (ha : ∀ c ∈ a, isSpace c = true) :
    lskip (a ++ b) = lskip b := by
  rw [lskip, List.dropWhile_append_of_pos ha]
  rfl

lemma Trimmed.rstrip_eq {s : Str} (h : Trimmed s) : rstrip s = s := by
  refine List.rdropWhile_eq_self_iff.mpr fun hne => ?_
  rw [h.2 _ (List.getLast?_eq_some_getLast hne)]
  simp

lemma Trimmed.lskip_eq {s : Str} (h : Trimmed s) : lskip s = s := by
  cases s with
  | nil => rfl
  | cons c s => rw [lskip, List.dropWhile_cons_of_neg (by simp [h.1 c rfl])]

/-- A part without the characters and without a comment is passed. -/
lemma findCharsOrComment_append {chars : List UInt8} {a : Str} (hchars : ∀ c ∈ a, c ∉ chars)
    {was : Bool} (hchain : Commentless a) (hwas : was = true → a.head? ≠ some semicolon) {s : Str}
    (hs : s = [] ∨ ∃ d ∈ s.head?, d ∈ chars) :
    findCharsOrComment chars was (a ++ s) = (a, s) := by
  induction a generalizing was with
  | nil =>
      rcases hs with rfl | ⟨d, hd, hmem⟩
      · rfl
      · obtain ⟨s, rfl⟩ : ∃ t, s = d :: t := ⟨s.tail, (List.cons_head?_tail hd).symm⟩
        rw [List.nil_append, findCharsOrComment, if_pos (.inl hmem)]
  | cons c a ih =>
      obtain ⟨hc, ha⟩ := List.forall_mem_cons.mp hchars
      have hnext : isSpace c = true → a.head? ≠ some semicolon := by
        intro hspace hhead
        obtain ⟨b, rfl⟩ : ∃ b, a = semicolon :: b := ⟨a.tail, (List.cons_head?_tail hhead).symm⟩
        exact (List.isChain_cons_cons.mp hchain).1 ⟨hspace, rfl⟩
      rw [List.cons_append, findCharsOrComment, if_neg, ih ha hchain.tail hnext]
      rintro (hmem | ⟨hw, rfl⟩)
      · exact hc hmem
      · exact hwas hw rfl

/-! ## One line of the loop -/

section Loop

variable {σ : Type} {handler : σ → Str → Str → Str → Bool × σ} {p : Parser σ}

/-- The parser on the next line. -/
def Parser.next (p : Parser σ) : Parser σ := { p with lineno := p.lineno + 1 }

/-- A line that begins with neither a blank nor a mark. -/
lemma Parser.line_of_head {buffer : Str} {c : UInt8} {rest : Str} (hzero : 0 ∉ buffer)
    (hbom : ¬ bom <+: buffer) (hhead : buffer.head? = some c) (hc : isSpace c = false)
    (hnote : c ≠ semicolon ∧ c ≠ hash) (hstart : rstrip (lskip buffer) = c :: rest) :
    p.line handler buffer =
      if c = opening then p.next.startSection rest else p.next.setting handler (c :: rest) := by
  simp only [Parser.line, cText_of_notMem hzero, hbom, and_false, if_false, hstart, hnote.1, hnote.2,
    or_self, hhead, Option.any_some, hc, Bool.false_eq_true, Parser.next]

lemma lskip_append_of_ne {a b : Str} (h : lskip a ≠ []) : lskip (a ++ b) = lskip a ++ b := by
  have hskip : ¬ (a.dropWhile isSpace).isEmpty = true := by simpa [lskip] using h
  rw [lskip, List.dropWhile_append, if_neg hskip]
  rfl

/-- A note is skipped. -/
lemma Parser.line_note {t : Str} (hw : (Line.note t).WellFormed) :
    p.line handler (t ++ [newline]) = p.next := by
  have hzero : 0 ∉ t ++ [newline] := by simpa [newline, Line.text] using hw.zero_notMem
  have hbom : ¬ bom <+: t ++ [newline] := by
    intro hpre
    cases t with
    | nil => exact absurd (List.cons_prefix_cons.mp hpre).1 (by decide)
    | cons c t =>
        obtain rfl : 0xEF = c := (List.cons_prefix_cons.mp hpre).1
        rcases hw.legible with h | h | h
        · exact absurd h (by simp [lskip, isSpace])
        · exact absurd h (by simp [lskip, isSpace, semicolon])
        · exact absurd h (by simp [lskip, isSpace, hash])
  have hstart : rstrip (lskip (t ++ [newline])) = [] ∨
      ∃ c rest, (c = semicolon ∨ c = hash) ∧ rstrip (lskip (t ++ [newline])) = c :: rest := by
    rcases hw.legible with h | h
    · left
      have hall : ∀ c ∈ t, isSpace c = true := List.dropWhile_eq_nil_iff.mp h
      have hskip : lskip (t ++ [newline]) = [] :=
        List.dropWhile_eq_nil_iff.mpr fun c hc => by
          rcases List.mem_append.mp hc with hc | hc
          · exact hall c hc
          · rw [List.mem_singleton.mp hc]
            exact isSpace_newline
      rw [hskip]
      rfl
    · right
      obtain ⟨c, hc, hhead⟩ : ∃ c, (c = semicolon ∨ c = hash) ∧ (lskip t).head? = some c := by
        rcases h with h | h
        · exact ⟨_, .inl rfl, h⟩
        · exact ⟨_, .inr rfl, h⟩
      have hspace : isSpace c = false := by rcases hc with rfl | rfl <;> rfl
      have hcons : lskip t = c :: (lskip t).tail := (List.cons_head?_tail hhead).symm
      have hne : lskip t ≠ [] := by
        rw [hcons]
        simp
      refine ⟨c, rstrip ((lskip t).tail ++ [newline]), hc, ?_⟩
      rw [lskip_append_of_ne hne, hcons, List.cons_append, List.tail_cons]
      exact rstrip_append_cons (a := []) hspace
  rcases hstart with hstart | ⟨c, rest, hc, hstart⟩
  · simp only [Parser.line, cText_of_notMem hzero, hbom, and_false, if_false, hstart, Parser.next]
  · simp only [Parser.line, cText_of_notMem hzero, hbom, and_false, if_false, hstart, if_pos hc,
      Parser.next]

/-- A heading names the section. -/
lemma Parser.line_heading {name : Str} (hw : (Line.heading name).WellFormed) :
    p.line handler ((Line.heading name).text ++ [newline])
      = { p.next with sectionName := name, prevName := [] } := by
  obtain ⟨hclosing, hcomment, hlen⟩ := hw.legible
  have hzero : 0 ∉ (Line.heading name).text ++ [newline] := by
    simpa [newline] using hw.zero_notMem
  have hbom : ¬ bom <+: (Line.heading name).text ++ [newline] := fun hpre =>
    absurd (List.cons_prefix_cons.mp hpre).1 (by decide)
  have hstart : rstrip (lskip ((Line.heading name).text ++ [newline]))
      = opening :: (name ++ [closing]) := by
    have hskip : lskip ((Line.heading name).text ++ [newline])
        = (opening :: name) ++ closing :: [newline] := by
      simp [Line.text, lskip, opening, isSpace]
    rw [hskip, rstrip_append_cons rfl]
    rfl
  rw [Parser.line_of_head hzero hbom rfl rfl (by decide) hstart, if_pos rfl, Parser.startSection,
    findCharsOrComment_append (fun c hc hmem => ?_) hcomment (by simp)
      (.inr ⟨closing, rfl, List.mem_singleton_self _⟩)]
  · have htake : strncpy0 name maxSection = name := List.take_of_length_le (by omega)
    simp [htake]
  · rw [List.mem_singleton.mp hmem] at hc
    exact hclosing hc

/-- What is left of a value behind the sign. -/
lemma value_of_rest {after value : Str} (hafter : ∀ c ∈ after, isSpace c = true) (h : Trimmed value)
    (hcomment : Commentless (after ++ value)) :
    rstrip (lskip (findCharsOrComment [] false (rstrip (after ++ value))).1) = value := by
  have hchain : Commentless (rstrip (after ++ value)) :=
    hcomment.prefix (List.rdropWhile_prefix _ _)
  have hfind : findCharsOrComment [] false (rstrip (after ++ value) ++ [])
      = (rstrip (after ++ value), []) :=
    findCharsOrComment_append (by simp) hchain (by simp) (.inl rfl)
  rw [List.append_nil] at hfind
  rw [hfind]
  rcases List.eq_nil_or_concat value with rfl | ⟨front, c, rfl⟩
  · have hnil := rstrip_append_blanks (a := []) hafter
    rw [List.append_nil]
    rw [List.nil_append] at hnil
    rw [hnil]
    rfl
  · rw [List.concat_eq_append] at h ⊢
    have hc : isSpace c = false := h.2 c (by simp)
    have hrest : rstrip (after ++ (front ++ [c])) = after ++ (front ++ [c]) := by
      rw [← List.append_assoc]
      exact rstrip_append_cons hc
    rw [hrest, lskip_blanks_append hafter, h.lskip_eq, h.rstrip_eq]

/-- Blanks make no comment. -/
lemma Commentless.append_blanks {a b : Str} (ha : Commentless a) (hb : ∀ c ∈ b, isSpace c = true) :
    Commentless (a ++ b) := by
  have hne : ∀ c ∈ b, c ≠ semicolon := by
    rintro c hc rfl
    exact absurd (hb _ hc) (by decide)
  refine List.isChain_append.mpr ⟨ha, ?_, fun x _ y hy => ?_⟩
  · refine List.Pairwise.isChain (List.pairwise_iff_forall_sublist.mpr fun hsub => ?_)
    exact fun hxy => hne _ (hsub.subset (by simp)) hxy.2
  · exact fun hxy => hne y (List.mem_of_mem_head? hy) hxy.2

/-- What follows a name is no part of a mark. -/
lemma not_bom_append {name before : Str} (h : ¬ bom <+: name)
    (hbefore : ∀ c ∈ before, isSpace c = true) (rest : Str) :
    ¬ bom <+: name ++ (before ++ equals :: rest) := by
  obtain ⟨d, tail, htail, hd⟩ : ∃ d tail, before ++ equals :: rest = d :: tail ∧ d ∉ bom := by
    cases before with
    | nil => exact ⟨equals, rest, rfl, by decide⟩
    | cons d before =>
        refine ⟨d, before ++ equals :: rest, rfl, fun hmem => ?_⟩
        have hspace := hbefore d List.mem_cons_self
        simp only [bom, List.mem_cons, List.not_mem_nil, or_false] at hmem
        rcases hmem with rfl | rfl | rfl <;> exact absurd hspace (by decide)
  rw [htail, ← List.singleton_append, ← List.append_assoc]
  intro hpre
  rcases List.prefix_or_prefix_of_prefix hpre (List.prefix_append (name ++ [d]) tail) with hle | hge
  · rcases List.prefix_concat_iff.mp hle with heq | hle
    · exact hd (heq ▸ by simp)
    · exact h hle
  · exact hd (hge.subset (by simp))

/-- A setting goes to the handler. -/
lemma Parser.line_setting {name before after value : Str}
    (hw : (Line.setting name before after value).WellFormed) :
    p.line handler ((Line.setting name before after value).text ++ [newline])
      = { p.next with prevName := strncpy0 name maxName }.handle handler name value := by
  obtain ⟨hne, hname, hcomment, hequals, hcolon, hhead, hbom, hbefore, hafter, hvalue, hcomment'⟩ :=
    hw.legible
  obtain ⟨c, name, rfl⟩ := List.exists_cons_of_ne_nil hne
  obtain ⟨hopening, hsemicolon, hhash⟩ := hhead c rfl
  have hc : isSpace c = false := hname.1 c rfl
  have hzero : 0 ∉ (Line.setting (c :: name) before after value).text ++ [newline] := by
    simpa [newline] using hw.zero_notMem
  have hbuffer : (Line.setting (c :: name) before after value).text ++ [newline]
      = (c :: name ++ before) ++ equals :: (after ++ value ++ [newline]) := by simp [Line.text]
  have hmark : ¬ bom <+: (Line.setting (c :: name) before after value).text ++ [newline] := by
    rw [hbuffer, List.append_assoc]
    exact not_bom_append hbom hbefore _
  have hstart : rstrip (lskip ((Line.setting (c :: name) before after value).text ++ [newline]))
      = c :: (name ++ before ++ equals :: rstrip (after ++ value)) := by
    have hskip : lskip ((c :: name ++ before) ++ equals :: (after ++ value ++ [newline]))
        = (c :: name ++ before) ++ equals :: (after ++ value ++ [newline]) := by
      rw [lskip, List.cons_append, List.cons_append, List.dropWhile_cons_of_neg (by simp [hc])]
    rw [hbuffer, hskip, rstrip_append_cons rfl,
      rstrip_append_blanks (List.forall_mem_singleton.mpr isSpace_newline)]
    simp
  have hfind : findCharsOrComment [equals, Captcha.colon] false
      (c :: (name ++ before ++ equals :: rstrip (after ++ value)))
      = (c :: name ++ before, equals :: rstrip (after ++ value)) := by
    refine findCharsOrComment_append (a := c :: name ++ before) (fun d hd hmem => ?_)
      (hcomment.append_blanks hbefore) (by simp) (.inr ⟨equals, rfl, List.mem_cons_self⟩)
    rcases List.mem_append.mp hd with hd | hd
    · rcases List.mem_pair.mp hmem with rfl | rfl
      · exact hequals hd
      · exact hcolon hd
    · rcases List.mem_pair.mp hmem with rfl | rfl <;> exact absurd (hbefore _ hd) (by decide)
  have hstrip : rstrip (c :: name ++ before) = c :: name :=
    (rstrip_append_blanks hbefore).trans hname.rstrip_eq
  rw [Parser.line_of_head hzero hmark rfl hc ⟨hsemicolon, hhash⟩ hstart, if_neg hopening,
    Parser.setting]
  simp only [hfind, true_or, if_true, hstrip, value_of_rest hafter hvalue hcomment']

/-! ## The whole file -/

/-- What a handler makes of settings. -/
def handled (handler : σ → Str → Str → Str → Bool × σ) (user : σ) (es : List (Str × Str × Str)) : σ :=
  es.foldl (fun u e => (handler u e.1 e.2.1 e.2.2).2) user

lemma Parser.handle_eq (haccept : ∀ u s n v, (handler u s n v).1 = true) (name value : Str) :
    p.handle handler name value
      = { p with user := (handler p.user p.sectionName name value).2 } := by
  rw [Parser.handle, if_pos (haccept _ _ _ _)]

/-- The loop over lines that are written. -/
lemma foldl_line (haccept : ∀ u s n v, (handler u s n v).1 = true) {lines : List Line}
    (hw : ∀ l ∈ lines, l.WellFormed) (p : Parser σ) :
    ((lines.map fun l => l.text ++ [newline]).foldl (Parser.line handler) p).error = p.error ∧
      ((lines.map fun l => l.text ++ [newline]).foldl (Parser.line handler) p).user
        = handled handler p.user (entries p.sectionName lines) := by
  induction lines generalizing p with
  | nil => exact ⟨rfl, rfl⟩
  | cons l ls ih =>
      obtain ⟨hl, hls⟩ := List.forall_mem_cons.mp hw
      rw [List.map_cons, List.foldl_cons]
      cases l with
      | note t =>
          rw [Line.text, Parser.line_note hl]
          exact ih hls p.next
      | heading name =>
          rw [Parser.line_heading hl]
          exact ih hls _
      | setting name before after value =>
          rw [Parser.line_setting hl, Parser.handle_eq haccept]
          exact ih hls _

/-- A file that is written is read as it is meant, without an error. -/
theorem parseFile_written (haccept : ∀ u s n v, (handler u s n v).1 = true) {lines : List Line}
    (hw : ∀ l ∈ lines, l.WellFormed) (user : σ) :
    parseFile handler user (written lines) = (0, handled handler user (entries [] lines)) := by
  obtain ⟨herror, huser⟩ := foldl_line haccept hw { user }
  rw [parseFile, fgetsLines_written hw]
  exact Prod.ext herror huser

end Loop

/-! ## Files of any content -/

section Any

variable {σ : Type} {handler : σ → Str → Str → Str → Bool × σ}

/-- Settings are collected. -/
def collect (es : List (Str × Str × Str)) (sectionName name value : Str) :
    Bool × List (Str × Str × Str) :=
  (true, es ++ [(sectionName, name, value)])

/-- The settings that the parser finds in a file, with their sections, in order. -/
def found (content : Str) : List (Str × Str × Str) := (parseFile collect [] content).2

/-- The parser with what its handler makes of the collected settings. -/
def Parser.retell (handler : σ → Str → Str → Str → Bool × σ) (user : σ)
    (p : Parser (List (Str × Str × Str))) : Parser σ :=
  ⟨handled handler user p.user, p.sectionName, p.prevName, p.lineno, p.error⟩

variable {user : σ} {p : Parser (List (Str × Str × Str))}

lemma Parser.retell_fail : p.fail.retell handler user = (p.retell handler user).fail := by
  by_cases h : p.error = 0 <;> simp [Parser.fail, Parser.retell, h]

lemma Parser.retell_handle (haccept : ∀ u s n v, (handler u s n v).1 = true) (name value : Str) :
    (p.handle collect name value).retell handler user
      = (p.retell handler user).handle handler name value := by
  rw [Parser.handle_eq (fun _ _ _ _ => rfl), Parser.handle_eq haccept]
  simp [Parser.retell, collect, handled]

lemma Parser.retell_startSection (rest : Str) :
    (p.startSection rest).retell handler user = (p.retell handler user).startSection rest := by
  unfold Parser.startSection
  by_cases hclosing : (findCharsOrComment [closing] false rest).2.head? = some closing
  · simp only [if_pos hclosing]
    rfl
  · simp only [if_neg hclosing]
    exact Parser.retell_fail

lemma Parser.retell_setting (haccept : ∀ u s n v, (handler u s n v).1 = true) (start : Str) :
    (p.setting collect start).retell handler user
      = (p.retell handler user).setting handler start := by
  unfold Parser.setting
  cases hsep : (findCharsOrComment [equals, Captcha.colon] false start).2 with
  | nil =>
      simp only [hsep]
      exact Parser.retell_fail
  | cons c rest =>
      simp only [hsep]
      by_cases hc : c = equals ∨ c = Captcha.colon
      · rw [if_pos hc, if_pos hc]
        exact Parser.retell_handle haccept _ _
      · rw [if_neg hc, if_neg hc]
        exact Parser.retell_fail

lemma Parser.retell_line (haccept : ∀ u s n v, (handler u s n v).1 = true) (buffer : Str) :
    (p.line collect buffer).retell handler user = (p.retell handler user).line handler buffer := by
  have hlineno : (p.retell handler user).lineno = p.lineno := rfl
  have hprev : (p.retell handler user).prevName = p.prevName := rfl
  unfold Parser.line
  simp only [hlineno, hprev]
  generalize hbegin : (if p.lineno + 1 = 1 ∧ bom <+: cText buffer then (cText buffer).drop 3
    else cText buffer) = begin
  cases hstart : rstrip (lskip begin) with
  | nil => rfl
  | cons c rest =>
      simp only []
      split_ifs
      · rfl
      · exact Parser.retell_handle haccept _ _
      · exact Parser.retell_startSection _
      · exact Parser.retell_setting haccept _

/-- Any handler that accepts everything is told the settings that are found, in order. -/
lemma parseFile_eq (haccept : ∀ u s n v, (handler u s n v).1 = true) (user : σ) (content : Str) :
    (parseFile handler user content).2 = handled handler user (found content) := by
  have hfold : ∀ (ls : List Str) (p : Parser (List (Str × Str × Str))),
      (ls.foldl (Parser.line collect) p).retell handler user
        = ls.foldl (Parser.line handler) (p.retell handler user) := by
    intro ls
    induction ls with
    | nil => exact fun _ => rfl
    | cons l ls ih =>
        intro p
        rw [List.foldl_cons, ih, Parser.retell_line haccept]
        rfl
  exact (congrArg Parser.user (hfold (fgetsLines maxLine [] content) { user := [] })).symm

/-- In a file that is written, the settings in it are found. -/
lemma found_written {lines : List Line} (hw : ∀ l ∈ lines, l.WellFormed) :
    found (written lines) = entries [] lines := by
  have hcollect : ∀ es es', handled collect es es' = es ++ es' := by
    intro es es'
    induction es' generalizing es with
    | nil => exact (List.append_nil es).symm
    | cons e es' ih =>
        rw [handled, List.foldl_cons]
        exact (ih _).trans (List.append_assoc _ _ _)
  rw [found, parseFile_written (fun _ _ _ _ => rfl) hw]
  exact hcollect [] _

end Any

/-! ## What a setting is worth -/

/-- The values of a key, in order. -/
def occurrences (es : List (Str × Str × Str)) (key : Str) : List Str :=
  (es.filter fun e => makeKey e.1 e.2.1 = key).map fun e => e.2.2

lemma handled_snoc {σ : Type} (handler : σ → Str → Str → Str → Bool × σ) (user : σ)
    (es : List (Str × Str × Str)) (e : Str × Str × Str) :
    handled handler user (es ++ [e]) = (handler (handled handler user es) e.1 e.2.1 e.2.2).2 := by
  simp [handled]

lemma occurrences_snoc (es : List (Str × Str × Str)) (e : Str × Str × Str) (key : Str) :
    occurrences (es ++ [e]) key
      = occurrences es key ++ if makeKey e.1 e.2.1 = key then [e.2.2] else [] := by
  by_cases h : makeKey e.1 e.2.1 = key <;> simp [occurrences, h]

/-- The map of the reader holds the joined occurrences of every key that occurs. -/
lemma handled_values (es : List (Str × Str × Str)) (key : Str) :
    handled valueHandler (fun _ => none) es key =
      if occurrences es key = [] then none else some ((occurrences es key).foldl join []) := by
  induction es using List.reverseRecOn with
  | nil => rfl
  | append_singleton es e ih =>
      rw [handled_snoc, occurrences_snoc]
      by_cases hkey : makeKey e.1 e.2.1 = key
      · subst hkey
        rw [if_pos rfl, if_neg (by simp), List.foldl_append, valueHandler]
        simp only [Function.update_self, ih, List.foldl_cons, List.foldl_nil]
        split
        · rename_i hnil
          rw [hnil]
          rfl
        · rfl
      · rw [if_neg hkey, List.append_nil, ← ih, valueHandler]
        exact Function.update_of_ne (Ne.symm hkey) _ _

lemma foldl_join_of_ne {acc : Str} (h : acc ≠ []) (vs : List Str) :
    vs.foldl join acc = [newline].intercalate (acc :: vs) := by
  induction vs generalizing acc with
  | nil => simp
  | cons v vs ih =>
      have hpos : 0 < acc.length := List.length_pos_of_ne_nil h
      rw [List.foldl_cons, join, if_pos hpos, ih (by simp [h])]
      cases vs <;> simp

/-- Joined are all values from the first on that is not empty. -/
lemma foldl_join (vs : List Str) :
    vs.foldl join [] = [newline].intercalate (vs.dropWhile (· = [])) := by
  induction vs with
  | nil => rfl
  | cons v vs ih =>
      by_cases hv : v = []
      · subst hv
        rw [List.dropWhile_cons_of_pos (by simp), ← ih]
        rfl
      · rw [List.dropWhile_cons_of_neg (by simpa using hv), List.foldl_cons, ← foldl_join_of_ne hv]
        rfl

/-! ## Numbers -/

lemma takeWhile_append_newline {p : UInt8 → Bool} (hp : p newline = false) (s w : Str) :
    (s ++ newline :: w).takeWhile p = s.takeWhile p := by
  induction s with
  | nil => simp [hp]
  | cons c s ih => by_cases hc : p c = true <;> simp [hc, ih]

/-- Neither the base nor the digits are sought beyond the line. -/
lemma baseDigits_append_newline (s w : Str) : baseDigits (s ++ newline :: w) = baseDigits s := by
  have hoctal : ∀ s, (s ++ newline :: w).takeWhile isOctal = s.takeWhile isOctal := fun s =>
    takeWhile_append_newline rfl s w
  have hdigit := takeWhile_append_newline (p := isDigit) rfl s w
  have hnewline : isHex newline = false := rfl
  have hzero : isHex 0 = false := rfl
  by_cases h48 : s.head? = some 48
  · have hhead : (s ++ newline :: w).head? = some 48 := by rw [List.head?_append, h48, Option.some_or]
    rw [baseDigits, baseDigits, if_pos h48, if_pos hhead, hoctal]
    rcases s with _ | ⟨a, _ | ⟨b, _ | ⟨c, s⟩⟩⟩
    · cases h48
    · have hmark : ¬ (newline = 120 ∨ newline = 88) := by decide
      simp [hmark]
    · simp [hnewline, hzero]
    · have hhex : (c :: (s ++ newline :: w)).takeWhile isHex = (c :: s).takeWhile isHex :=
        takeWhile_append_newline rfl (c :: s) w
      simp [hhex]
  · have hhead : ¬ (s ++ newline :: w).head? = some 48 := by
      cases s with
      | nil => simp [newline]
      | cons a s => exact h48
    rw [baseDigits, baseDigits, if_neg h48, if_neg hhead, hdigit]

/-- The first line decides the number. -/
lemma strtol_append_newline {c : UInt8} (hc : isSpace c = false) (v w : Str) :
    strtol (c :: v ++ newline :: w) = strtol (c :: v) := by
  have hskip : (c :: v ++ newline :: w).dropWhile isSpace = c :: v ++ newline :: w := by
    rw [List.cons_append, List.dropWhile_cons_of_neg (by simp [hc])]
  have hskip' : (c :: v).dropWhile isSpace = c :: v := List.dropWhile_cons_of_neg (by simp [hc])
  have hhead : (c :: v ++ newline :: w).head? = (c :: v).head? := rfl
  have htail : (c :: v ++ newline :: w).tail = (c :: v).tail ++ newline :: w := rfl
  unfold strtol
  simp only [hskip, hskip', hhead, htail]
  by_cases hsign : ((c :: v).head? == some '-'.toNat.toUInt8 ||
      (c :: v).head? == some '+'.toNat.toUInt8) = true
  · simp only [if_pos hsign, baseDigits_append_newline]
  · simp only [if_neg hsign, baseDigits_append_newline]

/-- The value begins with no blank. -/
def Begun (e : Str × Str × Str) : Prop := ∀ c ∈ e.2.2.head?, isSpace c = false

lemma begun_rstrip {sectionName name s : Str} (h : ∀ c ∈ s.head?, isSpace c = false) :
    Begun (sectionName, name, rstrip s) := by
  intro c hc
  obtain ⟨t, ht⟩ := List.rdropWhile_prefix isSpace s
  refine h c ?_
  rw [← ht, List.head?_append]
  have hc : (rstrip s).head? = some c := hc
  rw [rstrip] at hc
  rw [hc]
  rfl

lemma head?_lskip (s : Str) : ∀ c ∈ (lskip s).head?, isSpace c = false := fun c hc => by
  have hnot := List.head?_dropWhile_not isSpace s
  rw [lskip] at hc
  rw [Option.mem_def.mp hc] at hnot
  exact hnot

/-- Nothing is cut from the front. -/
lemma head?_findCharsOrComment {c : UInt8} (s : Str) :
    (findCharsOrComment [] false (c :: s)).1.head? = some c := by
  simp [findCharsOrComment]

/-- A line adds at most one setting. -/
lemma line_collect (p : Parser (List (Str × Str × Str))) (buffer : Str) :
    (p.line collect buffer).user = p.user ∨
      ∃ e, Begun e ∧ (p.line collect buffer).user = p.user ++ [e] := by
  have hfail : ∀ p : Parser (List (Str × Str × Str)), p.fail.user = p.user := fun p => by
    unfold Parser.fail
    split <;> rfl
  have hhandle : ∀ (p : Parser (List (Str × Str × Str))) (name value : Str),
      (p.handle collect name value).user = p.user ++ [(p.sectionName, name, value)] :=
    fun p name value => by rw [Parser.handle_eq (fun _ _ _ _ => rfl)]; rfl
  unfold Parser.line
  generalize hbegin : (if p.lineno + 1 = 1 ∧ bom <+: cText buffer then (cText buffer).drop 3
    else cText buffer) = begin
  simp only [hbegin]
  cases hstart : rstrip (lskip begin) with
  | nil => exact .inl rfl
  | cons c rest =>
      simp only []
      split_ifs
      · exact .inl rfl
      · -- the value begins where the line does
        have hc : isSpace c = false := by
          have hbegun : Begun ([], [], rstrip (lskip begin)) := begun_rstrip (head?_lskip begin)
          rw [hstart] at hbegun
          exact hbegun c rfl
        refine .inr ⟨_, begun_rstrip fun d hd => ?_, hhandle _ _ _⟩
        rw [head?_findCharsOrComment] at hd
        obtain rfl : c = d := by simpa using hd
        exact hc
      · left
        unfold Parser.startSection
        simp only []
        split
        · rfl
        · exact hfail _
      · unfold Parser.setting
        simp only []
        split
        · exact .inl (hfail _)
        · split
          · exact .inr ⟨_, begun_rstrip (head?_lskip _), hhandle _ _ _⟩
          · exact .inl (hfail _)

lemma found_begun (content : Str) : ∀ e ∈ found content, Begun e := by
  have hfold : ∀ (ls : List Str) (p : Parser (List (Str × Str × Str))), (∀ e ∈ p.user, Begun e) →
      ∀ e ∈ (ls.foldl (Parser.line collect) p).user, Begun e := by
    intro ls
    induction ls with
    | nil => exact fun p hp => hp
    | cons l ls ih =>
        intro p hp
        refine ih _ fun e he => ?_
        rcases line_collect p l with hsame | ⟨e', he', hsnoc⟩
        · exact hp e (hsame ▸ he)
        · rw [hsnoc] at he
          rcases List.mem_append.mp he with he | he
          · exact hp e he
          · rw [List.mem_singleton.mp he]
            exact he'
  exact hfold _ _ (by simp)

/-- A text that is set. -/
lemma get_eq (content sectionName name default : Str) :
    get (parseFile valueHandler (fun _ => none) content).2 sectionName name default =
      if occurrences (found content) (makeKey sectionName name) = [] then default
      else [newline].intercalate
        ((occurrences (found content) (makeKey sectionName name)).dropWhile (· = [])) := by
  have hhandled := handled_values (found content) (makeKey sectionName name)
  rw [foldl_join, ← parseFile_eq (fun _ _ _ _ => rfl)] at hhandled
  rw [get, hhandled]
  split <;> rfl

/-- **What a setting is worth**, in a file of any content: the occurrences of a text are joined by
newlines from the first on that is not empty, and a number is read from that one alone. -/
theorem setting_spec (content sectionName name : Str) :
    let values := (parseFile valueHandler (fun _ => none) content).2
    let vs := occurrences (found content) (makeKey sectionName name)
    (∀ default, get values sectionName name default =
      if vs = [] then default else [newline].intercalate (vs.dropWhile (· = []))) ∧
    ∀ default, getInteger values sectionName name default =
      ((vs.find? (· ≠ [])).bind strtol).getD default := by
  intro values vs
  refine ⟨get_eq content sectionName name, fun default => ?_⟩
  have hbegun : ∀ v ∈ vs, ∀ c ∈ v.head?, isSpace c = false := by
    intro v hv
    obtain ⟨e, he, rfl⟩ := List.mem_map.mp hv
    exact found_begun content e (List.mem_filter.mp he).1
  have hfind : vs.find? (· ≠ []) = (vs.dropWhile (· = [])).head? := by
    simpa using List.find?_not_eq_head?_dropWhile (p := fun v : Str => decide (v = [])) (l := vs)
  have hget : get values sectionName name [] = [newline].intercalate (vs.dropWhile (· = [])) := by
    refine (get_eq content sectionName name []).trans ?_
    split
    · rename_i hnil
      rw [show vs = [] from hnil]
      rfl
    · rfl
  rw [getInteger, hget, hfind]
  cases hrest : vs.dropWhile (· = []) with
  | nil => rfl
  | cons v rest =>
      have hmem : v ∈ vs := (List.dropWhile_sublist _).subset (hrest ▸ List.mem_cons_self)
      have hne : v ≠ [] := by
        have hnot := List.head?_dropWhile_not (fun v : Str => decide (v = [])) vs
        rw [hrest] at hnot
        simpa using hnot
      obtain ⟨c, v, rfl⟩ := List.exists_cons_of_ne_nil hne
      have hc : isSpace c = false := hbegun _ hmem c rfl
      rw [List.head?_cons, Option.bind_some]
      cases rest with
      | nil => rw [List.intercalate_singleton]
      | cons r rest =>
          rw [List.intercalate_cons_cons, List.append_assoc]
          exact congrArg (Option.getD · default) (strtol_append_newline hc v _)

/-! ## Numbers in decimal -/

/-- The byte of a digit. -/
def digitByte (d : ℕ) : UInt8 := (48 + d).toUInt8

/-- A natural number in decimal. -/
def decimalNat (n : ℕ) : Str := if n = 0 then [48] else (Nat.digits 10 n).reverse.map digitByte

/-- A number in decimal. -/
def decimal (z : ℤ) : Str :=
  if z < 0 then '-'.toNat.toUInt8 :: decimalNat z.natAbs else decimalNat z.natAbs

lemma digitByte_spec {d : ℕ} (hd : d < 10) : digit (digitByte d) = d ∧
    isDigit (digitByte d) = true ∧ isSpace (digitByte d) = false ∧
    (d ≠ 0 → digitByte d ≠ 48) ∧ digitByte d ≠ '-'.toNat.toUInt8 ∧
    digitByte d ≠ '+'.toNat.toUInt8 := by
  have key : ∀ d < 10, digit (digitByte d) = d ∧ isDigit (digitByte d) = true ∧
      isSpace (digitByte d) = false ∧ (d ≠ 0 → digitByte d ≠ 48) ∧
      digitByte d ≠ '-'.toNat.toUInt8 ∧ digitByte d ≠ '+'.toNat.toUInt8 := by decide +kernel
  exact key d hd

lemma foldl_digits {ds : List ℕ} (hds : ∀ d ∈ ds, d < 10) :
    (ds.reverse.map digitByte).foldl (fun acc c => acc * 10 + digit c) 0
      = ((Nat.ofDigits 10 ds : ℕ) : ℤ) := by
  induction ds with
  | nil => rfl
  | cons d ds ih =>
      obtain ⟨hd, hds⟩ := List.forall_mem_cons.mp hds
      rw [List.reverse_cons, List.map_append, List.foldl_append, ih hds, List.map_singleton,
        List.foldl_cons, List.foldl_nil, (digitByte_spec hd).1, Nat.ofDigits_cons]
      push_cast
      ring

/-- The decimal digits are recognized as such, and give the number. -/
lemma decimalNat_spec (n : ℕ) : ∃ base digits, baseDigits (decimalNat n) = (base, digits) ∧
    digits ≠ [] ∧ digits.foldl (fun acc c => acc * base + digit c) 0 = (n : ℤ) ∧
    ∃ c rest, decimalNat n = c :: rest ∧ isSpace c = false ∧ c ≠ '-'.toNat.toUInt8 ∧
      c ≠ '+'.toNat.toUInt8 := by
  by_cases hn : n = 0
  · subst hn
    exact ⟨8, [48], rfl, by simp, rfl, 48, [], rfl, rfl, by decide, by decide⟩
  · have hne : Nat.digits 10 n ≠ [] := Nat.digits_ne_nil_iff_ne_zero.mpr hn
    have hlt : ∀ d ∈ Nat.digits 10 n, d < 10 := fun d hd => Nat.digits_lt_base (by norm_num) hd
    have htext : decimalNat n = (Nat.digits 10 n).reverse.map digitByte := if_neg hn
    have hall : ∀ c ∈ decimalNat n, isDigit c = true := by
      intro c hc
      rw [htext] at hc
      obtain ⟨d, hd, rfl⟩ := List.mem_map.mp hc
      exact (digitByte_spec (hlt d (List.mem_reverse.mp hd))).2.1
    have hhead : (decimalNat n).head? = some (digitByte ((Nat.digits 10 n).getLast hne)) := by
      rw [htext, List.head?_map, List.head?_reverse, List.getLast?_eq_some_getLast hne, Option.map_some]
    obtain ⟨-, -, hspace, h48, hminus, hplus⟩ := digitByte_spec (hlt _ (List.getLast_mem hne))
    have h48 := h48 (Nat.getLast_digit_ne_zero 10 hn)
    have htake : (decimalNat n).takeWhile isDigit = decimalNat n :=
      List.takeWhile_eq_self_iff.mpr hall
    have hnot : ¬ (decimalNat n).head? = some 48 := by
      rw [hhead]
      simpa using h48
    refine ⟨10, decimalNat n, ?_, ?_, ?_, _, (decimalNat n).tail, ?_, hspace, hminus, hplus⟩
    · rw [baseDigits, if_neg hnot, htake]
    · rw [htext]
      simpa using hne
    · rw [htext, foldl_digits hlt, Nat.ofDigits_digits]
    · exact (List.cons_head?_tail hhead).symm

lemma strtol_decimal {z : ℤ} (hlo : -2 ^ 63 ≤ z) (hhi : z < 2 ^ 63) :
    strtol (decimal z) = some z := by
  obtain ⟨base, digits, hbase, hne, hvalue, c, rest, htext, hspace, hminus, hplus⟩ :=
    decimalNat_spec z.natAbs
  by_cases hneg : z < 0
  · have hdecimal : decimal z = '-'.toNat.toUInt8 :: decimalNat z.natAbs := if_pos hneg
    have hskip : (decimal z).dropWhile isSpace = decimal z := by
      rw [hdecimal]
      exact List.dropWhile_cons_of_neg (by decide)
    have hsign : ((decimal z).head? == some '-'.toNat.toUInt8) = true := by
      rw [hdecimal]
      rfl
    have htail : (decimal z).tail = decimalNat z.natAbs := by rw [hdecimal, List.tail_cons]
    have hclamp : max (-2 ^ 63) (min (2 ^ 63 - 1) (-(z.natAbs : ℤ))) = z := by omega
    unfold strtol
    simp only [hskip, hsign, Bool.true_or, if_true, htail, hbase, if_neg hne, hvalue, hclamp]
  · have hdecimal : decimal z = c :: rest := (if_neg hneg).trans htext
    have hskip : (decimal z).dropWhile isSpace = decimal z := by
      rw [hdecimal]
      exact List.dropWhile_cons_of_neg (by simp [hspace])
    have hsign : ((decimal z).head? == some '-'.toNat.toUInt8) = false := by
      rw [hdecimal]
      simpa using hminus
    have hsign' : ((decimal z).head? == some '+'.toNat.toUInt8) = false := by
      rw [hdecimal]
      simpa using hplus
    have hbody : baseDigits (decimal z) = (base, digits) := by rw [hdecimal, ← htext, hbase]
    have hclamp : max (-2 ^ 63) (min (2 ^ 63 - 1) (z.natAbs : ℤ)) = z := by omega
    unfold strtol
    simp only [hskip, hsign, hsign', Bool.or_self, Bool.false_eq_true, if_false, hbody, if_neg hne,
      hvalue, hclamp]

end HashHush.Ini

namespace HashHush

open Ini

/-! ## A configuration that is written out -/

/-- The settings of a configuration, with their sections. -/
def Settings.entries (c : Settings) : List (Str × Str × Str) := [
  (ascii "server", ascii "log_level", c.logLevel),
  (ascii "server", ascii "bind_address", c.bindAddress),
  (ascii "server", ascii "bind_port", decimal c.bindPort),
  (ascii "server", ascii "app_name", c.appName),
  (ascii "server", ascii "admin_text", c.adminText),
  (ascii "storage", ascii "db_path", c.dbPath),
  (ascii "room", ascii "max_participants", decimal c.maxParticipants),
  (ascii "room", ascii "max_participants_cap", decimal c.maxParticipantsCap),
  (ascii "room", ascii "idle_ttl_seconds", decimal c.idleTtlSeconds),
  (ascii "room", ascii "total_rooms_cap", decimal c.totalRoomsCap),
  (ascii "room", ascii "message_cache_size", decimal c.messageCacheSize),
  (ascii "room", ascii "ws_max_payload_bytes", decimal c.wsMaxPayloadBytes),
  (ascii "room", ascii "challenge_max_blob_bytes", decimal c.challengeMaxBlobBytes),
  (ascii "room", ascii "pow_difficulty_bits", decimal c.powDifficultyBits)]

/-- The numbers that are `int`s in the source. -/
def Settings.ints (c : Settings) : List ℤ := [c.maxParticipants, c.maxParticipantsCap,
  c.idleTtlSeconds, c.totalRoomsCap, c.messageCacheSize, c.wsMaxPayloadBytes,
  c.challengeMaxBlobBytes, c.powDifficultyBits]

/-- Every number is one of its type in the source. -/
def Settings.Typed (c : Settings) : Prop :=
  (∀ n ∈ c.ints, -2 ^ 31 ≤ n ∧ n < 2 ^ 31) ∧ 0 ≤ c.bindPort ∧ c.bindPort < 2 ^ 16

instance : DecidablePred Settings.Typed := fun _ => inferInstanceAs (Decidable (_ ∧ _ ∧ _))

/-- **A configuration that is written out is read back**, whatever was configured before: from any
well-formed file in which each of its settings occurs once, in any order, spelled in any case, and
among any notes and other settings. -/
theorem settings_read_back {c : Settings} (hc : c.Typed) {lines : List Line}
    (hw : ∀ l ∈ lines, l.WellFormed)
    (hset : ∀ e ∈ c.entries, occurrences (Ini.entries [] lines) (makeKey e.1 e.2.1) = [e.2.2])
    (old : Settings) : old.loadFromFile (some (written lines)) = (true, c) := by
  have hfound : found (written lines) = Ini.entries [] lines := found_written hw
  have hget : ∀ {s n v : Str}, (s, n, v) ∈ c.entries → ∀ default,
      get (parseFile valueHandler (fun _ => none) (written lines)).2 s n default = v := by
    intro s n v he default
    have hocc : occurrences (found (written lines)) (makeKey s n) = [v] := by
      rw [hfound]
      exact hset _ he
    rw [get_eq, hocc, if_neg (by simp)]
    by_cases hv : v = []
    · simp [hv]
    · simp [hv]
  have hint : ∀ {s n : Str} {z : ℤ}, (s, n, decimal z) ∈ c.entries → -2 ^ 31 ≤ z → z < 2 ^ 31 →
      ∀ default, getInteger (parseFile valueHandler (fun _ => none) (written lines)).2 s n default
        = z := by
    intro s n z he hlo hhi default
    rw [getInteger, hget he, strtol_decimal (by omega) (by omega), Option.getD_some]
  obtain ⟨hints, hport, hport'⟩ := hc
  have htoInt : ∀ {s n : Str} {z : ℤ}, (s, n, decimal z) ∈ c.entries → z ∈ c.ints → ∀ default,
      toInt (getInteger (parseFile valueHandler (fun _ => none) (written lines)).2 s n default)
        = z := by
    intro s n z he hz default
    obtain ⟨hlo, hhi⟩ := hints z hz
    rw [hint he hlo hhi, toInt, Int.bmod_def]
    omega
  have hbindPort : ∀ default, toUInt16 (getInteger
      (parseFile valueHandler (fun _ => none) (written lines)).2 (ascii "server")
        (ascii "bind_port") default) = c.bindPort := by
    intro default
    rw [hint (z := c.bindPort) (by simp [Settings.entries]) (by omega) (by omega), toUInt16]
    omega
  rw [Settings.loadFromFile, Settings.assign, hbindPort]
  congr 1
  obtain ⟨⟨_, _, _, _, _, _, _, _⟩, _, _, _, _, _, _⟩ := c
  congr 1
  · congr 1 <;> exact htoInt (by simp [Settings.entries]) (by simp [Settings.ints]) _
  all_goals exact hget (by simp [Settings.entries]) _

/-- A setting with one blank on either side of the sign. -/
def Ini.Line.plain (name value : String) : Line := .setting (ascii name) [32] [32] (ascii value)

/-- The lines of the file that the program writes on request. -/
def defaultLines : List Line := [
  .heading (ascii "server"), .plain "log_level" "info", .plain "bind_address" "0.0.0.0",
  .plain "bind_port" "8080", .plain "app_name" "HashHush",
  .note (ascii "; Optional announcement shown on the home page below the server-info block."),
  .note (ascii "; Leave empty to hide the panel. Rendered as raw HTML " ++ [0xE2, 0x80, 0x94]
    ++ ascii " links via <a>, line"),
  .note (ascii "; breaks via <br>, etc. Treat this file as trusted; anyone who can edit it"),
  .note (ascii "; can run arbitrary JS in visitors' browsers."),
  .setting (ascii "admin_text") [32] [] [], .note [],
  .heading (ascii "storage"), .plain "db_path" "/var/lib/hashhush/hashhush.sqlite", .note [],
  .heading (ascii "room"), .plain "max_participants" "10", .plain "max_participants_cap" "50",
  .plain "idle_ttl_seconds" "86400", .plain "total_rooms_cap" "0", .plain "message_cache_size" "5",
  .plain "ws_max_payload_bytes" "8192", .plain "challenge_max_blob_bytes" "256",
  .plain "pow_difficulty_bits" "16"]

/-- A server that is configured otherwise. -/
def Sample.configured : Settings where
  maxParticipants := 3
  totalRoomsCap := 100
  logLevel := ascii "debug"
  bindPort := 443
  adminText := ascii "Closed on Sundays."

/-- The file that the program writes on request sets every default. -/
theorem default_config_read_back :
    Sample.configured.loadFromFile (some kDefaultConfigContent) = (true, {}) := by
  have htext : kDefaultConfigContent = written defaultLines := by decide +kernel
  rw [htext]
  exact settings_read_back (by decide +kernel) (by decide +kernel) (by decide +kernel) _

end HashHush
