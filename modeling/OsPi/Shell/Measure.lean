import OsPi.Shell.Counting

/-!
# The First Part of the Parser

`measure` cuts the text out of the line, takes a final `&` off it and runs the first pass. The
spaces around a text and an `&` at its end are all the grammar knows of the difference, so the
line is accepted exactly when its text before the `#` is a command line.
-/

namespace OsPi.Shell

open List Option

variable {s u v w x y rest sp sp' line : Str} {t : Token} {ts : List Token} {c : CommandLine}
  {b : Bool}

/-! ### Spaces around a text -/

theorem Spaces.append (h : Spaces sp) (h' : Spaces sp') : Spaces (sp ++ sp') := by
  intro c hc
  exact (mem_append.mp hc).elim (h c) (h' c)

theorem Spaces.amp_notMem (h : Spaces sp) : amp ∉ sp := fun hmem => absurd (h amp hmem) (by decide)

theorem Spaces.head? (h : Spaces sp) : ∀ c ∈ sp.head?, wordChar c = false :=
  fun c hc => not_wordChar_of_isspace (h c (mem_of_head? hc))

theorem IsWord.amp_notMem (h : IsWord w rest) : amp ∉ w :=
  fun hmem => absurd (h.chars amp hmem) (by decide)

theorem IsWord.of_head? {rest' : Str} (h : IsWord w rest)
    (hrest : ∀ d ∈ rest'.head?, wordChar d = false ∨ d ∈ rest.head?) : IsWord w rest' :=
  ⟨h.ne_nil, h.chars, fun d hd => (hrest d hd).elim id (h.ends d)⟩

/-- The characters of a token: they end with one that is no space, and there is no `&` among
them. What follows may be anything that does not go on with a word. -/
def Token.HasPrefix (t : Token) (v rest : Str) : Prop :=
  ∃ u c, v = (u ++ [c]) ++ rest ∧ isspace c = false ∧ amp ∉ u ++ [c] ∧
    ∀ rest' : Str, (∀ d ∈ rest'.head?, wordChar d = false ∨ d ∈ rest.head?) →
      t.At ((u ++ [c]) ++ rest') rest'

theorem IsWord.hasPrefix (pre : Str) (h : IsWord w rest) (hpre : amp ∉ pre)
    (hat : ∀ rest', IsWord w rest' → t.At (pre ++ (w ++ rest')) rest') :
    t.HasPrefix (pre ++ (w ++ rest)) rest := by
  obtain ⟨u, c, rfl⟩ := (eq_nil_or_concat w).resolve_left h.ne_nil
  rw [concat_eq_append] at h hat ⊢
  have hc := h.chars c (mem_append_right _ mem_cons_self)
  refine ⟨pre ++ u, c, by simp, not_isspace_of_wordChar hc, ?_, fun rest' hrest => ?_⟩
  · rw [append_assoc, mem_append, not_or]
    exact ⟨hpre, h.amp_notMem⟩
  · have := hat rest' (h.of_head? hrest)
    rwa [← append_assoc, ← append_assoc pre] at this

theorem amp_notMem_signs (hsp : Spaces sp) :
    amp ∉ lt :: sp ∧ amp ∉ lt :: lt :: sp ∧ amp ∉ gt :: sp ∧ amp ∉ gt :: gt :: sp := by
  have h := hsp.amp_notMem
  simp only [mem_cons, not_or]
  exact ⟨⟨by decide, h⟩, ⟨by decide, by decide, h⟩, ⟨by decide, h⟩, by decide, by decide, h⟩

theorem Token.At.hasPrefix (h : t.At v rest) : t.HasPrefix v rest := by
  cases h with
  | word hw => exact hw.hasPrefix [] not_mem_nil fun _ => .word
  | input hsp hw => exact hw.hasPrefix _ (amp_notMem_signs hsp).1 fun _ => .input hsp
  | hereDocument hsp hw =>
    exact hw.hasPrefix _ (amp_notMem_signs hsp).2.1 fun _ => .hereDocument hsp
  | output hsp hw => exact hw.hasPrefix _ (amp_notMem_signs hsp).2.2.1 fun _ => .output hsp
  | append hsp hw => exact hw.hasPrefix _ (amp_notMem_signs hsp).2.2.2 fun _ => .append hsp
  | pipe => exact ⟨[], bar, rfl, rfl, by decide, fun _ _ => .pipe⟩

/-- There is no `&` in a text. -/
theorem Text.amp_notMem (h : Text s ts) : amp ∉ s := by
  induction h with
  | blank hsp => exact hsp.amp_notMem
  | token hsp ht _ ih =>
    obtain ⟨u, c, rfl, -, hamp, -⟩ := ht.hasPrefix
    simp only [mem_append, not_or] at hamp ⊢
    exact ⟨hsp.amp_notMem, ⟨hamp.1, hamp.2⟩, ih⟩

theorem text_skipSpace {cur : ℕ} : Text (s.drop cur) ts ↔ Text (s.drop (skipSpace s cur)) ts := by
  have hskip : skipSpace s (skipSpace s cur) = skipSpace s cur := skipWhile_skipWhile ..
  cases ts with
  | nil => rw [text_nil_iff, text_nil_iff, hskip]
  | cons t ts => rw [text_cons_iff, text_cons_iff, hskip]

/-- Spaces before a text. -/
theorem text_spaces_append (hsp : Spaces sp) : Text (sp ++ s) ts ↔ Text s ts := by
  have hdrop : (sp ++ s).drop sp.length = s := drop_left
  have hskip : skipSpace (sp ++ s) 0 = skipSpace (sp ++ s) sp.length := by
    rw [skipSpace, skipWhile, skipWhile, hdrop, drop_zero, takeWhile_append_of_pos hsp,
      length_append, Nat.zero_add]
  rw [← drop_zero (l := sp ++ s), text_skipSpace, hskip, ← text_skipSpace, hdrop]

/-- Spaces after a text. -/
theorem text_append_spaces (hsp : Spaces sp) : Text (s ++ sp) ts ↔ Text s ts := by
  constructor
  · intro h
    generalize hv : s ++ sp = v at h
    induction h generalizing s with
    | blank hv' => exact .blank fun c hc => hv' c (hv ▸ mem_append_left _ hc)
    | @token sp' _ t rest ts hs ht _ ih =>
      obtain ⟨u, c, rfl, hc, -, hat⟩ := ht.hasPrefix
      rw [← append_assoc] at hv
      -- the token lies before the spaces, since it does not end with one
      rcases append_eq_append_iff.mp hv with ⟨as, hs', rfl⟩ | ⟨rest', rfl, rfl⟩
      · rcases eq_nil_or_concat as with rfl | ⟨as, d, rfl⟩
        · rw [append_nil] at hs'
          have hat' := hat [] nofun
          rw [append_nil] at hat'
          rw [← hs']
          exact .token hs hat' (ih (s := []) rfl)
        · rw [concat_eq_append, ← append_assoc, ← append_assoc] at hs'
          obtain rfl : c = d := (append_inj' hs' rfl).2 |> singleton_inj.mp
          have hmem := hsp c (by simp)
          rw [hc] at hmem
          cases hmem
      · rw [append_assoc]
        refine .token hs (hat rest' fun d hd => .inr ?_) (ih rfl)
        exact mem_head?_append_of_mem_head? hd
  · intro h
    induction h with
    | blank hs => exact .blank (hs.append hsp)
    | @token sp' _ t rest ts hs ht _ ih =>
      obtain ⟨u, c, rfl, -, -, hat⟩ := ht.hasPrefix
      rw [append_assoc, append_assoc]
      refine .token hs (hat (rest ++ sp) fun d hd => ?_) ih
      cases rest with
      | nil => exact .inl (hsp.head? d hd)
      | cons e rest => exact .inr hd

/-! ### The parts of the line -/

theorem trim_spec (s : Str) :
    ∃ sp sp', Spaces sp ∧ Spaces sp' ∧ s = sp ++ (trim s ++ sp') ∧
      (∀ c ∈ (trim s).head?, isspace c = false) ∧ ∀ c ∈ (trim s).getLast?, isspace c = false := by
  refine ⟨s.takeWhile isspace, ((s.dropWhile isspace).reverse.takeWhile isspace).reverse,
    fun c hc => mem_takeWhile_imp hc, fun c hc => mem_takeWhile_imp (mem_reverse.mp hc), ?_, ?_, ?_⟩
  · rw [trim, List.rdropWhile, ← reverse_append, takeWhile_append_dropWhile,
      reverse_reverse, takeWhile_append_dropWhile]
  · intro c hc
    obtain ⟨r, hr⟩ := rdropWhile_prefix isspace (s.dropWhile isspace)
    have h := head?_dropWhile_not isspace s
    rw [trim] at hc
    rw [← hr, mem_def.mp (mem_head?_append_of_mem_head? hc)] at h
    exact h
  · intro c hc
    rw [trim, List.rdropWhile, getLast?_reverse] at hc
    have h := head?_dropWhile_not isspace (s.dropWhile isspace).reverse
    rw [mem_def.mp hc] at h
    exact h

/-- The last character that is no space. -/
theorem append_inj_of_spaces {a b : UInt8} (ha : isspace a = false) (hb : isspace b = false)
    (hsp : Spaces sp) (hsp' : Spaces sp') (h : x ++ a :: sp = y ++ b :: sp') : x = y ∧ a = b := by
  have hnot : ∀ {c : UInt8} {s : Str}, isspace c = false → Spaces s → c ∉ s := fun hc hs hmem =>
    absurd (hs _ hmem) (by rw [hc]; exact Bool.false_ne_true)
  rcases append_eq_append_iff.mp h with ⟨as, rfl, has⟩ | ⟨as, rfl, has⟩
  · cases as with
    | nil => exact ⟨(append_nil x).symm, (cons_eq_cons.mp has).1⟩
    | cons d as =>
      obtain ⟨-, rfl⟩ := cons_eq_cons.mp has
      exact absurd (by simp) (hnot hb hsp)
  · cases as with
    | nil => exact ⟨append_nil y, (cons_eq_cons.mp has).1.symm⟩
    | cons d as =>
      obtain ⟨-, rfl⟩ := cons_eq_cons.mp has
      exact absurd (by simp) (hnot ha hsp')

/-- The text without a final `&`. -/
def body (background : Bool) (s : Str) : Str := if background then s.dropLast else s

/-- The grammar without the spaces around the text and without the `&`. -/
theorem matches_iff :
    Matches s c ↔ (c.background = true ↔ (trim s).getLast? = some amp) ∧
      (c.background = true → c.commands ≠ []) ∧
      ∃ segs, Text (body c.background (trim s)) ([Token.pipe].intercalate segs) ∧
        Pipeline segs c := by
  obtain ⟨sp, sp', hsp, hsp', hs, -, hlast⟩ := trim_spec s
  constructor
  · rintro ⟨body, segs, htext, hpipe, ⟨hbg, rfl⟩ | ⟨hbg, hne, sp'', hsp'', hbody⟩⟩
    · rw [hbg]
      have hamp := htext.amp_notMem
      rw [hs, text_spaces_append hsp, text_append_spaces hsp'] at htext
      refine ⟨iff_of_false Bool.false_ne_true fun hl => ?_, fun h => absurd h Bool.false_ne_true,
        segs, htext, hpipe⟩
      refine hamp ?_
      rw [hs]
      exact mem_append_right _ (mem_append_left _ (mem_of_getLast? hl))
    · rw [hbg]
      rcases eq_nil_or_concat (trim s) with hnil | ⟨u, l, hu⟩
      · -- a text of spaces has no `&`
        rw [hnil, nil_append] at hs
        exact absurd (hs ▸ hbody ▸ by simp) (hsp.append hsp').amp_notMem
      · rw [concat_eq_append] at hu
        rw [hu] at hs hlast ⊢
        have heq : (sp ++ u) ++ l :: sp' = body ++ amp :: sp'' := by
          rw [← hbody, hs]
          simp
        obtain ⟨rfl, rfl⟩ := append_inj_of_spaces (hlast l (by simp)) rfl hsp' hsp'' heq
        rw [text_spaces_append hsp] at htext
        refine ⟨by simp, fun _ => hne, segs, ?_, hpipe⟩
        simpa [body] using htext
  · rintro ⟨hbg, hne, segs, htext, hpipe⟩
    cases hb : c.background with
    | false =>
      rw [hb] at htext
      refine ⟨s, segs, ?_, hpipe, .inl ⟨hb, rfl⟩⟩
      rw [hs, text_spaces_append hsp, text_append_spaces hsp']
      exact htext
    | true =>
      rw [hb] at htext
      have hl := hbg.mp hb
      obtain ⟨u, hu⟩ := getLast?_eq_some_iff.mp hl
      rw [hu] at hs htext
      refine ⟨sp ++ u, segs, ?_, hpipe, .inr ⟨hb, hne hb, sp', hsp', by rw [hs]; simp⟩⟩
      rw [text_spaces_append hsp]
      simpa [body] using htext

/-! ### The counts of a line -/

theorem filterMap_intercalate {α : Type} (f : Token → Option α) (hf : f .pipe = none)
    (segs : List (List Token)) :
    ([Token.pipe].intercalate segs).filterMap f = segs.flatMap (List.filterMap f) := by
  match segs with
  | [] => rfl
  | [seg] => simp [List.intercalate]
  | seg :: next :: more =>
    have ih := filterMap_intercalate f hf (next :: more)
    rw [intercalate_cons_cons, filterMap_append, filterMap_append, ih]
    simp [hf]

theorem count_intercalate {seg : List Token} {more : List (List Token)}
    (h : ∀ x ∈ seg :: more, Token.pipe ∉ x) :
    ([Token.pipe].intercalate (seg :: more)).count .pipe = more.length := by
  induction more generalizing seg with
  | nil =>
    rw [intercalate_singleton, count_eq_zero_of_not_mem (h seg mem_cons_self)]
    rfl
  | cons next more ih =>
    obtain ⟨hseg, hmore⟩ := forall_mem_cons.mp h
    rw [intercalate_cons_cons, count_append, count_append, ih hmore,
      count_eq_zero_of_not_mem hseg, count_singleton_self, length_cons]
    omega

/-- The counts for a command line. -/
structure Count.For (st : Count) (c : CommandLine) : Prop where
  numCommands : st.numCommands = c.commands.length
  totalStrings : st.totalStrings = (c.commands.map List.length).sum
  isHereDocument : st.isHereDocument = c.input.any Prod.fst
  isFileAppend : st.isFileAppend = c.output.any Prod.fst

section Sums

variable {seg : List Token} {more : List (List Token)}

theorem Pipeline.length_commands (h : Pipeline (seg :: more) c) :
    c.commands.length = more.length + 1 := by
  rw [← h.commands, length_map, length_cons]

section Tokens

variable {segs : List (List Token)} (h : Pipeline segs c)
include h

theorem Pipeline.words_eq : words ([Token.pipe].intercalate segs) = c.commands.flatten := by
  rw [words, filterMap_intercalate _ rfl, ← h.commands, flatMap_def]
  rfl

theorem Pipeline.inputs_eq : inputs ([Token.pipe].intercalate segs) = c.input.toList := by
  rw [inputs, filterMap_intercalate _ rfl, ← h.input]
  rfl

theorem Pipeline.outputs_eq : outputs ([Token.pipe].intercalate segs) = c.output.toList := by
  rw [outputs, filterMap_intercalate _ rfl, ← h.output]
  rfl

end Tokens

theorem any_toList {α : Type} (o : Option α) (p : α → Bool) : o.toList.any p = o.any p := by
  cases o <;> simp

/-- The counts the first pass ends with. -/
theorem Pipeline.sums {st : Count} (h : Pipeline (seg :: more) c)
    (hst : Count.zero.Sums ([Token.pipe].intercalate (seg :: more)) st) :
    Count.For { st with numCommands := st.numCommands + 1 } c := by
  constructor
  · change st.numCommands + 1 = _
    rw [hst.numCommands, count_intercalate h.noPipe, h.length_commands]
    exact congrArg (· + 1) (Nat.zero_add _)
  · rw [hst.totalStrings, h.words_eq, length_flatten]
    exact Nat.zero_add _
  · rw [hst.isHereDocument, h.inputs_eq, any_toList]
    rfl
  · rw [hst.isFileAppend, h.outputs_eq, any_toList]
    rfl

end Sums

/-- The first pass over a text that does not start with a space. -/
theorem countLoop_zero (hhead : ∀ d ∈ s.head?, isspace d = false) (h : Text s ts) :
    countLoop s s.length .zero 0 = Count.zero.addAll ts := by
  have hzero : skipSpace s 0 = 0 := skipWhile_eq_self hhead
  have hloop : countLoop s s.length .zero (skipSpace s 0) = _ := countLoop_text h (Nat.le_refl _)
  rwa [hzero] at hloop

theorem text_or_countLoop_fails (hhead : ∀ d ∈ s.head?, isspace d = false) :
    (∃ ts, Text s ts) ∨ ∃ e, countLoop s s.length .zero 0 = .error (.failed e) := by
  have hzero : skipSpace s 0 = 0 := skipWhile_eq_self hhead
  have hloop := text_or_fails s .zero (show s.length ≤ s.length + 0 from Nat.le_refl _)
  rwa [hzero] at hloop

theorem head?_dropLast {d : UInt8} (h : d ∈ s.dropLast.head?) : d ∈ s.head? := by
  match s with
  | [] => exact h
  | [a] => cases h
  | a :: b :: s => exact h

/-- The end of `measure`, after the first pass. -/
def accept (background : Bool) (s : Str) (st : Count) : Except Stop Measured :=
  if st.totalStrings = 0 then
    if background ∨ st.hasFileInput ∨ st.hasFileOutput then throw (.failed .expectCommands)
    else pure (.empty st)
  else if !st.hasTokenLast then throw (.failed .unexpectedPipeline)
  else pure (.commands background s { st with numCommands := st.numCommands + 1 })

theorem measure_eq (hne : trim (beforeHash line) ≠ [])
    (hb : b = true ↔ (trim (beforeHash line)).getLast? = some amp) :
    measure line = (countLoop (body b (trim (beforeHash line)))
      (body b (trim (beforeHash line))).length .zero 0 >>= accept b
        (body b (trim (beforeHash line)))) := by
  rw [measure, if_neg hne]
  simp only [← hb, Bool.decide_eq_true]
  rfl

theorem head?_body (b : Bool) (line : Str) :
    ∀ d ∈ (body b (trim (beforeHash line))).head?, isspace d = false := by
  obtain ⟨-, -, -, -, -, hhead, -⟩ := trim_spec (beforeHash line)
  intro d hd
  cases b with
  | false => exact hhead d hd
  | true => exact hhead d (head?_dropLast hd)

/-- On a text of tokens `measure` counts them. -/
theorem measure_of_text (hne : trim (beforeHash line) ≠ [])
    (hb : b = true ↔ (trim (beforeHash line)).getLast? = some amp)
    (h : Text (body b (trim (beforeHash line))) ts) :
    measure line =
      (Count.zero.addAll ts >>= accept b (body b (trim (beforeHash line)))) := by
  rw [measure_eq hne hb, countLoop_zero (head?_body b line) h]

/-- A line is empty, it is a text of tokens, which `measure` counts, or `measure` fails. -/
theorem measure_cases (line : Str) :
    trim (beforeHash line) = [] ∨
      (∃ b ts, (b = true ↔ (trim (beforeHash line)).getLast? = some amp) ∧
        Text (body b (trim (beforeHash line))) ts ∧ measure line =
          (Count.zero.addAll ts >>= accept b (body b (trim (beforeHash line))))) ∨
      ∃ e, measure line = .error (.failed e) := by
  refine or_iff_not_imp_left.mpr fun hne => ?_
  obtain ⟨b, hb⟩ : ∃ b : Bool, b = true ↔ (trim (beforeHash line)).getLast? = some amp :=
    ⟨decide ((trim (beforeHash line)).getLast? = some amp), by simp⟩
  refine (text_or_countLoop_fails (head?_body b line)).imp ?_ ?_
  · rintro ⟨ts, htext⟩
    exact ⟨b, ts, hb, htext, measure_of_text hne hb htext⟩
  · rintro ⟨e, he⟩
    rw [measure_eq hne hb, he]
    exact ⟨e, rfl⟩

/-- A text that is not empty is not one of spaces only. -/
theorem trim_eq_nil (h : Spaces (trim s)) : trim s = [] := by
  obtain ⟨-, -, -, -, -, -, hlast⟩ := trim_spec s
  rcases eq_nil_or_concat (trim s) with hnil | ⟨u, l, hu⟩
  · exact hnil
  · rw [hu] at h hlast
    have hl := hlast l (by simp)
    rw [h l (by simp)] at hl
    cases hl

theorem Text.spaces (h : Text s []) : Spaces s := by
  cases h with
  | blank hsp => exact hsp

/-- **A command line is counted.** -/
theorem measure_of_matches (h : Matches (beforeHash line) c) (hne : c.commands ≠ []) :
    ∃ s seg more st, measure line = .ok (.commands c.background s st) ∧
      Text s ([Token.pipe].intercalate (seg :: more)) ∧ Pipeline (seg :: more) c ∧
      Count.For st c ∧ (∀ d ∈ s.head?, isspace d = false) ∧ ∀ d ∈ s, d ∈ beforeHash line := by
  obtain ⟨hb, -, segs, htext, hpipe⟩ := matches_iff.mp h
  obtain ⟨seg, more, rfl⟩ : ∃ seg more, segs = seg :: more := by
    refine exists_cons_of_ne_nil ?_
    rintro rfl
    exact hne hpipe.commands.symm
  obtain ⟨st, hst, hlast⟩ := hpipe.fits.addAll hpipe.noPipe rfl
  have hfor := hpipe.sums (Count.addAll_sums hst)
  have htotal : st.totalStrings ≠ 0 := by
    have hword := length_pos_iff.mpr (hpipe.ne_nil seg mem_cons_self)
    have hsum : st.totalStrings = (c.commands.map List.length).sum := hfor.totalStrings
    rw [hsum, ← hpipe.commands, map_cons, map_cons, List.sum_cons]
    omega
  have hmeasure : trim (beforeHash line) ≠ [] := by
    intro hnil
    have hbody : body c.background [] = [] := by cases c.background <;> rfl
    rw [hnil, hbody] at htext
    have hloop := countLoop_zero (s := []) (by simp) htext
    rw [hst, countLoop_end (Nat.zero_le _)] at hloop
    cases hloop
    exact htotal rfl
  refine ⟨_, seg, more, _, ?_, htext, hpipe, hfor, head?_body c.background line, ?_⟩
  · rw [measure_of_text hmeasure hb htext, hst]
    change accept _ _ st = _
    rw [accept, if_neg htotal, if_neg (by rw [hlast]; decide)]
    rfl
  · intro d hd
    obtain ⟨sp, sp', -, -, hs, -, -⟩ := trim_spec (beforeHash line)
    have hmem : d ∈ trim (beforeHash line) := by
      cases hc : c.background <;> rw [hc] at hd
      · exact hd
      · exact dropLast_subset _ hd
    rw [hs]
    exact mem_append_right _ (mem_append_left _ hmem)

/-- A command line without commands has nothing else either. -/
theorem Matches.eq_of_nil (h : Matches s c) (hnil : c.commands = []) :
    c = ⟨[], none, none, false⟩ ∧ trim s = [] := by
  obtain ⟨-, hbg, segs, htext, hpipe⟩ := matches_iff.mp h
  have hfalse : c.background = false := Bool.eq_false_iff.mpr fun hc => hbg hc hnil
  obtain rfl : segs = [] := by
    have hcommands := hpipe.commands
    rwa [hnil, map_eq_nil_iff] at hcommands
  rw [hfalse] at htext
  refine ⟨?_, trim_eq_nil htext.spaces⟩
  have hinput := toList_eq_nil_iff.mp hpipe.input.symm
  have houtput := toList_eq_nil_iff.mp hpipe.output.symm
  cases c
  congr

/-- A line without words gives a result without commands. -/
theorem measure_of_matches_nil (h : Matches (beforeHash line) c) (hnil : c.commands = []) :
    measure line = .ok (.empty .zero) := by
  rw [measure, if_pos (h.eq_of_nil hnil).2]
  rfl

/-- A line of spaces is a command line without commands. -/
theorem matches_nil (hne : ¬(trim s).getLast? = some amp) (h : Text (trim s) []) :
    Matches s ⟨[], none, none, false⟩ :=
  matches_iff.mpr ⟨iff_of_false Bool.false_ne_true hne, fun h => absurd h Bool.false_ne_true, [],
    h, rfl, nofun, nofun, rfl, rfl, rfl, rfl⟩

/-- Tokens without a word and without a redirection are none at all: the first pass does not
accept a pipe before a word. -/
theorem Count.eq_nil_of_addAll {st : Count} (h : Count.zero.addAll ts = .ok st)
    (htotal : st.totalStrings = 0)
    (hfail : ¬(b = true ∨ st.hasFileInput = true ∨ st.hasFileOutput = true)) : ts = [] := by
  have hsums := Count.addAll_sums h
  rw [hsums.totalStrings, hsums.hasFileInput, hsums.hasFileOutput] at *
  match ts with
  | [] => rfl
  | .word _ :: _ => simp [words] at htotal
  | .input _ _ :: _ => simp [inputs] at hfail
  | .output _ _ :: _ => simp [outputs] at hfail
  | .pipe :: _ => cases h

/-- What is accepted is a command line. -/
theorem matches_of_measure {m : Measured} (h : measure line = .ok m) :
    ∃ c, Matches (beforeHash line) c := by
  rcases measure_cases line with hnil | ⟨b, ts, hb, htext, hrun⟩ | ⟨e, he⟩
  · refine ⟨_, matches_nil ?_ ?_⟩ <;> rw [hnil]
    · exact nofun
    · exact .blank nofun
  · rw [hrun] at h
    cases hst : Count.zero.addAll ts with
    | error e =>
      rw [hst] at h
      cases h
    | ok st =>
      rw [hst] at h
      change accept _ _ st = _ at h
      unfold accept at h
      split_ifs at h with htotal hfail hlast
      · -- a line without words
        obtain rfl := Count.eq_nil_of_addAll hst htotal hfail
        obtain rfl : b = false := Bool.eq_false_iff.mpr fun hbg => hfail (.inl hbg)
        exact ⟨_, matches_nil (fun hl => absurd (hb.mpr hl) Bool.false_ne_true) htext⟩
      · obtain ⟨seg, more, rfl, hpipe, hfits⟩ :=
          fits_of_addAll hst (by simpa using hlast)
        obtain ⟨c, hc, rfl⟩ := hfits.pipeline hpipe b
        refine ⟨c, matches_iff.mpr ⟨hb, fun _ => ?_, seg :: more, htext, hc⟩⟩
        rw [← hc.commands]
        exact cons_ne_nil _ _
  · rw [he] at h
    cases h

theorem accept_error {st : Count} {e : Stop} (h : accept b s st = .error e) :
    ∃ e', e = .failed e' := by
  unfold accept at h
  split_ifs at h <;> cases h <;> exact ⟨_, rfl⟩

theorem measure_error {e : Stop} (h : measure line = .error e) : ∃ e', e = .failed e' := by
  rcases measure_cases line with hnil | ⟨b, ts, -, -, hrun⟩ | ⟨e', he⟩
  · rw [measure, if_pos hnil] at h
    cases h
  · rw [hrun] at h
    cases hst : Count.zero.addAll ts with
    | error e' =>
      rw [hst] at h
      cases h
      exact Count.addAll_error hst
    | ok st =>
      rw [hst] at h
      exact accept_error h
  · rw [he] at h
    cases h
    exact ⟨e', rfl⟩

end OsPi.Shell
