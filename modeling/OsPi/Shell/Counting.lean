import OsPi.Shell.Scan

/-!
# The First Pass

The first pass of the parser, token by token (`Count.add`), accepts a text exactly when it is one
of the grammar. `Fits` is what the rest of a pipeline has to be for the pass to go on from a
state; with the state at the start it is the grammar's `Pipeline`.
-/

namespace OsPi.Shell

open List

variable {s : Str} {st st' : Count} {cur next fuel : ℕ} {t : Token} {ts : List Token}

/-! ### One token -/

/-- What the first pass does for a token. -/
def Count.add (st : Count) : Token → Except Stop Count
  | .word _ => pure { st with hasTokenLast := true, totalStrings := st.totalStrings + 1 }
  | .input here _ =>
    if 0 < st.numCommands ∨ st.hasFileInput then throw (.failed .unexpectedFileInput)
    else pure { st with isHereDocument := st.isHereDocument || here, hasFileInput := true }
  | .output append _ =>
    if st.hasFileOutput then throw (.failed .unexpectedFileOutput)
    else pure { st with isFileAppend := st.isFileAppend || append, hasFileOutput := true }
  | .pipe =>
    if st.hasFileOutput then throw (.failed .unexpectedFileOutput)
    else if !st.hasTokenLast then throw (.failed .unexpectedPipeline)
    else pure { st with hasTokenLast := false, numCommands := st.numCommands + 1 }

/-- What the first pass does for the tokens of a text. -/
def Count.addAll (st : Count) : List Token → Except Stop Count
  | [] => pure st
  | t :: ts => do (← st.add t).addAll ts

theorem Count.add_error {e : Stop} (h : st.add t = .error e) : ∃ e', e = .failed e' := by
  cases t <;> simp only [add] at h <;> (try split_ifs at h) <;> cases h <;> exact ⟨_, rfl⟩

theorem Count.addAll_error {e : Stop} (h : st.addAll ts = .error e) : ∃ e', e = .failed e' := by
  induction ts generalizing st with
  | nil => cases h
  | cons t ts ih =>
    rw [addAll] at h
    cases hadd : st.add t with
    | error e' =>
      rw [hadd] at h
      cases h
      exact Count.add_error hadd
    | ok st₁ =>
      rw [hadd] at h
      exact ih h

theorem ne_of_wordChar {c : UInt8} (h : wordChar c = true) :
    c ≠ amp ∧ c ≠ lt ∧ c ≠ gt ∧ c ≠ bar := by
  simp only [wordChar, bne_iff_ne, Bool.and_eq_true] at h
  tauto

/-- The pass at a token. -/
theorem countStep_scan (h : t.Scan s cur next) :
    countStep s st cur = (st.add t).map fun st' => (st', next) := by
  unfold countStep Count.add
  cases h with
  | word h =>
    obtain ⟨hamp, hlt, hgt, hbar⟩ := ne_of_wordChar h.wordChar_getD
    rw [if_neg hamp, if_neg hlt, if_neg hgt, if_neg hbar, h.skipWord_eq]
    rfl
  | @input w here hc hhere h =>
    have hpos := h.length_pos
    have hskip := h.skipWord_eq
    rw [afterSign] at hskip
    rw [hc, if_neg (by decide), if_pos rfl]
    simp only [hhere, Bool.decide_eq_true, afterSign]
    by_cases hin : 0 < st.numCommands ∨ st.hasFileInput = true
    · rw [if_pos hin, if_pos hin]
      rfl
    · rw [if_neg hin, if_neg hin, hskip, if_neg (by omega)]
      rfl
  | @output w append hc happ h =>
    have hpos := h.length_pos
    have hskip := h.skipWord_eq
    rw [afterSign] at hskip
    rw [hc, if_neg (by decide), if_neg (by decide), if_pos rfl]
    simp only [happ, Bool.decide_eq_true, afterSign]
    by_cases hout : st.hasFileOutput = true
    · rw [if_pos hout, if_pos hout]
      rfl
    · rw [if_neg hout, if_neg hout, hskip, if_neg (by omega)]
      rfl
  | pipe hlt hc =>
    rw [hc, if_neg (by decide), if_neg (by decide), if_neg (by decide), if_pos rfl]
    split_ifs <;> rfl

/-- Where there is no token the pass fails. -/
theorem scan_or_fails (st : Count) (hlt : cur < s.length) (hsp : isspace (s.getD cur 0) = false) :
    (∃ t next, Token.Scan s cur t next) ∨ ∃ e, countStep s st cur = .error (.failed e) := by
  rcases char_cases (s.getD cur 0) with hc | hc | hc | hc | hc | hc
  · rw [hsp] at hc
    cases hc
  · -- a word
    have hskip : cur < skipWord s cur := by
      rw [skipWord, skipWhile, drop_eq_cons hlt, takeWhile_cons_of_pos hc, length_cons]
      omega
    obtain ⟨w, hw, -⟩ := exists_wordAt hskip
    exact .inl ⟨_, _, .word hw⟩
  · -- an input redirection
    by_cases hskip : afterSign s cur (s[cur + 1]? = some lt) <
        skipWord s (afterSign s cur (s[cur + 1]? = some lt))
    · obtain ⟨w, hw, -⟩ := exists_wordAt hskip
      exact .inl ⟨_, _, .input hc (by simp) hw⟩
    · rw [afterSign] at hskip
      simp only [decide_eq_true_eq] at hskip
      rw [countStep, hc, if_neg (by decide), if_pos rfl]
      refine .inr ?_
      by_cases hin : 0 < st.numCommands ∨ st.hasFileInput = true
      · exact ⟨_, if_pos hin⟩
      · exact ⟨_, (if_neg hin).trans (if_pos (Nat.le_of_not_lt hskip))⟩
  · -- an output redirection
    by_cases hskip : afterSign s cur (s[cur + 1]? = some gt) <
        skipWord s (afterSign s cur (s[cur + 1]? = some gt))
    · obtain ⟨w, hw, -⟩ := exists_wordAt hskip
      exact .inl ⟨_, _, .output hc (by simp) hw⟩
    · rw [afterSign] at hskip
      simp only [decide_eq_true_eq] at hskip
      rw [countStep, hc, if_neg (by decide), if_neg (by decide), if_pos rfl]
      refine .inr ?_
      by_cases hout : st.hasFileOutput = true
      · exact ⟨_, if_pos hout⟩
      · exact ⟨_, (if_neg hout).trans (if_pos (Nat.le_of_not_lt hskip))⟩
  · exact .inl ⟨_, _, .pipe hlt hc⟩
  · refine .inr ⟨.unexpectedAmpersand, ?_⟩
    rw [countStep, if_pos hc]
    rfl

/-! ### The loop -/

theorem countLoop_end (h : s.length ≤ cur) : countLoop s fuel st cur = .ok st := by
  cases fuel <;> rw [countLoop, if_neg (by omega)] <;> rfl

theorem countLoop_scan (h : t.Scan s cur next) :
    countLoop s (fuel + 1) st cur =
      st.add t >>= fun st' => countLoop s fuel st' (skipSpace s next) := by
  have hbounds := h.bounds
  rw [countLoop, if_pos (by omega), countStep_scan h]
  cases st.add t <;> rfl

/-- On a text of tokens the pass takes them one by one. -/
theorem countLoop_text (h : Text (s.drop cur) ts) (hfuel : s.length ≤ fuel + cur) :
    countLoop s fuel st (skipSpace s cur) = st.addAll ts := by
  induction ts generalizing st cur fuel with
  | nil => exact countLoop_end (text_nil_iff.mp h)
  | cons t ts ih =>
    obtain ⟨next, hscan, hts⟩ := text_cons_iff.mp h
    have hbounds := hscan.bounds
    have hle : cur ≤ skipSpace s cur := le_skipWhile ..
    obtain ⟨fuel, rfl⟩ : ∃ k, fuel = k + 1 := ⟨fuel - 1, by omega⟩
    rw [countLoop_scan hscan, Count.addAll]
    cases st.add t with
    | error e => rfl
    | ok st₁ => exact ih hts (by omega)

/-- On any other text it fails. -/
theorem text_or_fails (s : Str) (st : Count) (hfuel : s.length ≤ fuel + cur) :
    (∃ ts, Text (s.drop cur) ts) ∨
      ∃ e, countLoop s fuel st (skipSpace s cur) = .error (.failed e) := by
  induction fuel generalizing st cur with
  | zero =>
    have hle : cur ≤ skipSpace s cur := le_skipWhile ..
    exact .inl ⟨[], text_nil_iff.mpr (by omega)⟩
  | succ fuel ih =>
    have hle : cur ≤ skipSpace s cur := le_skipWhile ..
    by_cases hend : s.length ≤ skipSpace s cur
    · exact .inl ⟨[], text_nil_iff.mpr hend⟩
    · have hsp : isspace (s.getD (skipSpace s cur) 0) = false := by
        refine head_drop_skipWhile isspace s cur _ ?_
        rw [← skipSpace, drop_eq_cons (by omega)]
        rfl
      rcases scan_or_fails st (by omega) hsp with ⟨t, next, hscan⟩ | ⟨e, he⟩
      · rw [countLoop_scan hscan]
        have hbounds := hscan.bounds
        cases hadd : st.add t with
        | error e =>
          obtain ⟨e', rfl⟩ := Count.add_error hadd
          exact .inr ⟨e', rfl⟩
        | ok st₁ =>
          rcases ih st₁ (show s.length ≤ fuel + next by omega) with ⟨ts, hts⟩ | hfail
          · exact .inl ⟨t :: ts, text_cons_iff.mpr ⟨next, hscan, hts⟩⟩
          · exact .inr hfail
      · refine .inr ⟨e, ?_⟩
        rw [countLoop, if_pos (by omega), he]
        rfl

/-! ### Commands -/

variable {seg next : List Token} {more : List (List Token)}

theorem intercalate_cons (t : Token) (seg : List Token) (more : List (List Token)) :
    [Token.pipe].intercalate ((t :: seg) :: more) = t :: [Token.pipe].intercalate (seg :: more) := by
  cases more <;> simp [List.intercalate]

theorem intercalate_nil (next : List Token) (more : List (List Token)) :
    [Token.pipe].intercalate ([] :: next :: more) =
      .pipe :: [Token.pipe].intercalate (next :: more) := by
  simp [List.intercalate]

/-- The output redirections of the rest of a pipeline: one in the last command, if there has been
none. -/
def OutputsFit : Bool → List Token → List (List Token) → Prop
  | out, seg, [] => (outputs seg).length ≤ if out then 0 else 1
  | out, seg, next :: more => out = false ∧ outputs seg = [] ∧ OutputsFit false next more

theorem outputsFit_congr {seg' : List Token} (out : Bool) (more : List (List Token)) (h : outputs seg' = outputs seg) :
    OutputsFit out seg' more ↔ OutputsFit out seg more := by
  cases more <;> simp only [OutputsFit, h]

theorem outputsFit_output {out append : Bool} {w : Str} :
    OutputsFit out (.output append w :: seg) more ↔ out = false ∧ OutputsFit true seg more := by
  have hcons : outputs (.output append w :: seg) = (append, w) :: outputs seg := rfl
  cases more with
  | nil => cases out <;> simp [OutputsFit, hcons]
  | cons next more => simp [OutputsFit, hcons]

/-- The rest of a pipeline from a state of the pass on: the rest of the command it is in, and the
commands after that. -/
structure Fits (st : Count) (seg : List Token) (more : List (List Token)) : Prop where
  word : st.hasTokenLast = true ∨ words seg ≠ []
  words_more : ∀ x ∈ more, words x ≠ []
  input : (inputs seg).length ≤ if 0 < st.numCommands ∨ st.hasFileInput then 0 else 1
  inputs_more : ∀ x ∈ more, inputs x = []
  output : OutputsFit st.hasFileOutput seg more

theorem fits_nil_nil : Fits st [] [] ↔ st.hasTokenLast = true := by
  constructor
  · intro h
    exact h.word.resolve_right (absurd rfl)
  · intro h
    exact ⟨.inl h, nofun, Nat.zero_le _, nofun, Nat.zero_le _⟩

/-- The pass goes on to the next command. -/
theorem fits_nil_cons :
    Fits st [] (next :: more) ↔ ∃ st', st.add .pipe = .ok st' ∧ Fits st' next more := by
  constructor
  · intro h
    obtain ⟨hout, -, hrest⟩ := h.output
    have hlast := h.word.resolve_right (absurd rfl)
    obtain ⟨hword, hwords⟩ := forall_mem_cons.mp h.words_more
    obtain ⟨hinput, hinputs⟩ := forall_mem_cons.mp h.inputs_more
    refine ⟨{ st with hasTokenLast := false, numCommands := st.numCommands + 1 }, ?_,
      .inr hword, hwords, ?_, hinputs, ?_⟩
    · simp only [Count.add, hout, hlast]
      rfl
    · rw [hinput]
      exact Nat.zero_le _
    · rw [hout]
      exact hrest
  · rintro ⟨st', hadd, h⟩
    simp only [Count.add] at hadd
    split_ifs at hadd with hout hlast
    cases hadd
    have hinput := h.input
    rw [if_pos (.inl (Nat.succ_pos _))] at hinput
    refine ⟨.inl (by simpa using hlast), ?_, Nat.zero_le _, ?_, ?_⟩
    · exact forall_mem_cons.mpr ⟨h.word.resolve_left Bool.false_ne_true, h.words_more⟩
    · refine forall_mem_cons.mpr ⟨?_, h.inputs_more⟩
      exact length_eq_zero_iff.mp (Nat.le_zero.mp hinput)
    · have hfalse : st.hasFileOutput = false := by simpa using hout
      have houtput := h.output
      simp only [hfalse] at houtput
      exact ⟨hfalse, rfl, houtput⟩

/-- The pass takes a token of a command. -/
theorem fits_cons (ht : t ≠ .pipe) :
    Fits st (t :: seg) more ↔ ∃ st', st.add t = .ok st' ∧ Fits st' seg more := by
  cases t with
  | pipe => exact absurd rfl ht
  | word w =>
    have hout := outputsFit_congr st.hasFileOutput more
      (show outputs (.word w :: seg) = outputs seg from rfl)
    constructor
    · intro h
      exact ⟨_, rfl, .inl rfl, h.words_more, h.input, h.inputs_more, hout.mp h.output⟩
    · rintro ⟨st', hadd, h⟩
      cases hadd
      exact ⟨.inr (cons_ne_nil _ _), h.words_more, h.input, h.inputs_more, hout.mpr h.output⟩
  | input here w =>
    have hcons : inputs (.input here w :: seg) = (here, w) :: inputs seg := rfl
    have hout := outputsFit_congr st.hasFileOutput more
      (show outputs (.input here w :: seg) = outputs seg from rfl)
    simp only [Count.add]
    constructor
    · intro h
      have hinput := h.input
      rw [hcons, length_cons] at hinput
      split_ifs at hinput with hin
      · exact absurd hinput (Nat.not_succ_le_zero _)
      · rw [if_neg hin]
        refine ⟨_, rfl, h.word, h.words_more, ?_, h.inputs_more, hout.mp h.output⟩
        rw [if_pos (.inr rfl)]
        exact Nat.le_of_succ_le_succ hinput
    · rintro ⟨st', hadd, h⟩
      split_ifs at hadd with hin
      cases hadd
      have hinput := h.input
      rw [if_pos (.inr rfl)] at hinput
      refine ⟨h.word, h.words_more, ?_, h.inputs_more, hout.mpr h.output⟩
      rw [hcons, length_cons, if_neg hin]
      exact Nat.succ_le_succ hinput
  | output append w =>
    simp only [Count.add]
    constructor
    · intro h
      obtain ⟨hfalse, hout⟩ := outputsFit_output.mp h.output
      rw [if_neg (by rw [hfalse]; exact Bool.false_ne_true)]
      exact ⟨_, rfl, h.word, h.words_more, h.input, h.inputs_more, hout⟩
    · rintro ⟨st', hadd, h⟩
      split_ifs at hadd with hfalse
      cases hadd
      exact ⟨h.word, h.words_more, h.input, h.inputs_more,
        outputsFit_output.mpr ⟨by simpa using hfalse, h.output⟩⟩

/-- The pass accepts the rest of a pipeline. -/
theorem Fits.addAll (h : Fits st seg more) (hpipe : ∀ x ∈ seg :: more, Token.pipe ∉ x)
    (hts : [Token.pipe].intercalate (seg :: more) = ts) :
    ∃ st', st.addAll ts = .ok st' ∧ st'.hasTokenLast = true := by
  induction ts generalizing st seg more with
  | nil =>
    match seg, more with
    | [], [] => exact ⟨st, rfl, fits_nil_nil.mp h⟩
    | [], next :: more =>
      rw [intercalate_nil] at hts
      cases hts
    | t :: seg, more =>
      rw [intercalate_cons] at hts
      cases hts
  | cons t ts ih =>
    obtain ⟨hseg, hmore⟩ := forall_mem_cons.mp hpipe
    match seg, more with
    | [], [] => cases hts
    | [], next :: more =>
      rw [intercalate_nil] at hts
      cases hts
      obtain ⟨st₁, hadd, hfits⟩ := fits_nil_cons.mp h
      rw [Count.addAll, hadd]
      exact ih hfits hmore rfl
    | t' :: seg, more =>
      rw [intercalate_cons] at hts
      cases hts
      rw [mem_cons, not_or] at hseg
      obtain ⟨st₁, hadd, hfits⟩ := (fits_cons (Ne.symm hseg.1)).mp h
      rw [Count.addAll, hadd]
      exact ih hfits (forall_mem_cons.mpr ⟨hseg.2, hmore⟩) rfl

/-- What the pass accepts is the rest of a pipeline. -/
theorem fits_of_addAll (h : st.addAll ts = .ok st') (hlast : st'.hasTokenLast = true) :
    ∃ seg more, ts = [Token.pipe].intercalate (seg :: more) ∧
      (∀ x ∈ seg :: more, Token.pipe ∉ x) ∧ Fits st seg more := by
  induction ts generalizing st with
  | nil =>
    cases h
    exact ⟨[], [], rfl, by simp, fits_nil_nil.mpr hlast⟩
  | cons t ts ih =>
    rw [Count.addAll] at h
    cases hadd : st.add t with
    | error e =>
      rw [hadd] at h
      cases h
    | ok st₁ =>
      rw [hadd] at h
      obtain ⟨seg, more, rfl, hpipe, hfits⟩ := ih h
      by_cases ht : t = .pipe
      · subst ht
        refine ⟨[], seg :: more, (intercalate_nil seg more).symm, ?_,
          fits_nil_cons.mpr ⟨st₁, hadd, hfits⟩⟩
        exact forall_mem_cons.mpr ⟨not_mem_nil, hpipe⟩
      · refine ⟨t :: seg, more, (intercalate_cons t seg more).symm, ?_,
          (fits_cons ht).mpr ⟨st₁, hadd, hfits⟩⟩
        obtain ⟨hseg, hmore⟩ := forall_mem_cons.mp hpipe
        refine forall_mem_cons.mpr ⟨?_, hmore⟩
        rw [mem_cons, not_or]
        exact ⟨Ne.symm ht, hseg⟩

/-! ### The grammar -/

theorem outputsFit_false_iff :
    OutputsFit false seg more ↔ (seg :: more).dropLast.flatMap outputs = [] ∧
      ((seg :: more).flatMap outputs).length ≤ 1 := by
  induction more generalizing seg with
  | nil => simp [OutputsFit]
  | cons next more ih =>
    have hcons : (seg :: next :: more).flatMap outputs =
      outputs seg ++ (next :: more).flatMap outputs := flatMap_cons
    have hlast : (seg :: next :: more).dropLast.flatMap outputs =
      outputs seg ++ (next :: more).dropLast.flatMap outputs := flatMap_cons
    rw [OutputsFit, ih, hcons, hlast, append_eq_nil_iff]
    constructor
    · rintro ⟨-, hseg, hnone, hone⟩
      rw [hseg]
      exact ⟨⟨rfl, hnone⟩, hone⟩
    · rintro ⟨⟨hseg, hnone⟩, hone⟩
      rw [hseg] at hone ⊢
      exact ⟨rfl, rfl, hnone, hone⟩

theorem eq_toList_head? {α : Type} {l : List α} (h : l.length ≤ 1) : l = l.head?.toList := by
  match l with
  | [] => rfl
  | [x] => rfl
  | x :: y :: l =>
    simp only [length_cons] at h
    omega

theorem length_toList_le {α : Type} (o : Option α) : o.toList.length ≤ 1 := by
  cases o <;> simp

/-- From the start on, what fits is a pipeline. -/
theorem Fits.pipeline (h : Fits .zero seg more) (hpipe : ∀ x ∈ seg :: more, Token.pipe ∉ x)
    (background : Bool) :
    ∃ c : CommandLine, Pipeline (seg :: more) c ∧ c.background = background := by
  obtain ⟨hlast, hone⟩ := outputsFit_false_iff.mp h.output
  have hmore : more.flatMap inputs = [] := flatMap_eq_nil_iff.mpr h.inputs_more
  have hinput : ((seg :: more).flatMap inputs).length ≤ 1 := by
    rw [flatMap_cons, hmore, append_nil]
    exact h.input
  refine ⟨⟨(seg :: more).map words, ((seg :: more).flatMap inputs).head?,
    ((seg :: more).flatMap outputs).head?, background⟩, ?_, rfl⟩
  refine ⟨rfl, ?_, hpipe, eq_toList_head? hinput, hmore, eq_toList_head? hone, hlast⟩
  exact forall_mem_cons.mpr ⟨h.word.resolve_left Bool.false_ne_true, h.words_more⟩

theorem Pipeline.fits {c : CommandLine} (h : Pipeline (seg :: more) c) : Fits .zero seg more := by
  obtain ⟨hword, hwords⟩ := forall_mem_cons.mp h.ne_nil
  refine ⟨.inr hword, hwords, ?_, flatMap_eq_nil_iff.mp h.input_first,
    outputsFit_false_iff.mpr ⟨h.output_last, ?_⟩⟩
  · have hinput := congrArg List.length h.input
    have hle := length_toList_le c.input
    rw [flatMap_cons, length_append] at hinput
    change (inputs seg).length ≤ 1
    omega
  · rw [h.output]
    exact length_toList_le _

/-! ### The counts -/

/-- What the pass has found after some tokens. -/
structure Count.Sums (st : Count) (ts : List Token) (st' : Count) : Prop where
  numCommands : st'.numCommands = st.numCommands + ts.count .pipe
  totalStrings : st'.totalStrings = st.totalStrings + (words ts).length
  isHereDocument : st'.isHereDocument = (st.isHereDocument || (inputs ts).any Prod.fst)
  isFileAppend : st'.isFileAppend = (st.isFileAppend || (outputs ts).any Prod.fst)
  hasFileInput : st'.hasFileInput = (st.hasFileInput || (inputs ts).any fun _ => true)
  hasFileOutput : st'.hasFileOutput = (st.hasFileOutput || (outputs ts).any fun _ => true)

theorem Count.add_sums (h : st.add t = .ok st') : st.Sums [t] st' := by
  cases t <;> simp only [add] at h <;> (try split_ifs at h) <;> cases h <;>
    constructor <;> simp [words, inputs, outputs]

theorem Count.Sums.trans {st'' : Count} {ts' : List Token} (h : st.Sums ts st')
    (h' : st'.Sums ts' st'') : st.Sums (ts ++ ts') st'' := by
  constructor
  · rw [h'.numCommands, h.numCommands, count_append, Nat.add_assoc]
  · rw [h'.totalStrings, h.totalStrings, words, words, words, filterMap_append,
      length_append, Nat.add_assoc]
  · rw [h'.isHereDocument, h.isHereDocument, inputs, inputs, inputs, filterMap_append,
      any_append, Bool.or_assoc]
  · rw [h'.isFileAppend, h.isFileAppend, outputs, outputs, outputs, filterMap_append,
      any_append, Bool.or_assoc]
  · rw [h'.hasFileInput, h.hasFileInput, inputs, inputs, inputs, filterMap_append,
      any_append, Bool.or_assoc]
  · rw [h'.hasFileOutput, h.hasFileOutput, outputs, outputs, outputs, filterMap_append,
      any_append, Bool.or_assoc]

theorem Count.addAll_sums (h : st.addAll ts = .ok st') : st.Sums ts st' := by
  induction ts generalizing st with
  | nil =>
    cases h
    constructor <;> simp [words, inputs, outputs]
  | cons t ts ih =>
    rw [addAll] at h
    cases hadd : st.add t with
    | error e =>
      rw [hadd] at h
      cases h
    | ok st₁ =>
      rw [hadd] at h
      exact (Count.add_sums hadd).trans (ih h)

end OsPi.Shell
