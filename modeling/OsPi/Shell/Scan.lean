import OsPi.Shell.Grammar

/-!
# Tokens at Positions

Both passes of the parser find the tokens of a text with `skip_word` and `skip_space`.
`Token.Scan` is what they see of a token at a position, and `text_cons_iff` connects it with the
grammar: the tokens of the rest of a text are the token at the next position that is no space,
and the tokens from its end on.
-/

namespace OsPi.Shell

open List Option

variable {s w rest sp : Str} {p : UInt8 → Bool} {cur next : ℕ} {t : Token} {ts : List Token}
  {c : UInt8}

/-! ### Characters -/

theorem not_isspace_of_wordChar (h : wordChar c = true) : isspace c = false := by
  simp only [wordChar, Bool.and_eq_true, Bool.not_eq_true'] at h
  exact h.2

theorem not_wordChar_of_isspace (h : isspace c = true) : wordChar c = false := by
  simp [wordChar, h]

/-- A character is a space, one of a word, or one with a meaning of its own. -/
theorem char_cases (c : UInt8) :
    isspace c = true ∨ wordChar c = true ∨ c = lt ∨ c = gt ∨ c = bar ∨ c = amp := by
  by_cases hs : isspace c = true
  · exact .inl hs
  · simp only [wordChar, bne_iff_ne, Bool.and_eq_true, Bool.not_eq_true', hs]
    tauto

/-! ### Positions -/

theorem drop_add_of_drop (h : s.drop cur = w ++ rest) : s.drop (cur + w.length) = rest := by
  rw [← drop_drop, h, drop_left]

theorem getD_of_drop {cs : Str} (h : s.drop cur = c :: cs) : s.getD cur 0 = c := by
  rw [getD_eq_getElem?_getD, ← head?_drop, h, head?_cons, getD_some]

theorem lt_length_of_drop {cs : Str} (h : s.drop cur = c :: cs) : cur < s.length := by
  by_contra hle
  rw [drop_eq_nil_of_le (by omega)] at h
  cases h

theorem getElem?_succ_of_drop {cs : Str} (h : s.drop cur = c :: cs) :
    s[cur + 1]? = cs.head? := by
  rw [← head?_drop]
  exact congrArg List.head? (drop_add_of_drop (w := [c]) h)

theorem drop_eq_cons (h : cur < s.length) : s.drop cur = s.getD cur 0 :: s.drop (cur + 1) := by
  rw [drop_eq_getElem_cons h, getD_eq_getElem _ _ h]

/-- A loop stops after the characters it passes. -/
theorem skipWhile_of_drop (h : s.drop cur = w ++ rest) (hw : ∀ c ∈ w, p c = true)
    (hrest : ∀ c ∈ rest.head?, p c = false) : skipWhile p s cur = cur + w.length := by
  have htail : rest.takeWhile p = [] := by
    cases rest with
    | nil => rfl
    | cons c cs => rw [takeWhile_cons, hrest c rfl, if_neg Bool.false_ne_true]
  rw [skipWhile, h, takeWhile_append_of_pos hw, htail, append_nil]

/-- What a loop passes, and where it stops. -/
theorem drop_skipWhile (p : UInt8 → Bool) (s : Str) (cur : ℕ) :
    s.drop (skipWhile p s cur) = (s.drop cur).dropWhile p :=
  drop_add_of_drop takeWhile_append_dropWhile.symm

theorem head_drop_skipWhile (p : UInt8 → Bool) (s : Str) (cur : ℕ) :
    ∀ c ∈ (s.drop (skipWhile p s cur)).head?, p c = false := by
  rw [drop_skipWhile]
  intro c hc
  have h := head?_dropWhile_not p (s.drop cur)
  rw [mem_def.mp hc] at h
  exact h

theorem le_skipWhile (p : UInt8 → Bool) (s : Str) (cur : ℕ) : cur ≤ skipWhile p s cur :=
  Nat.le_add_right _ _

/-- Where there is nothing to skip. -/
theorem skipWhile_eq_self (h : ∀ c ∈ (s.drop cur).head?, p c = false) :
    skipWhile p s cur = cur :=
  skipWhile_of_drop (w := []) rfl nofun h

theorem skipWhile_skipWhile (p : UInt8 → Bool) (s : Str) (cur : ℕ) :
    skipWhile p s (skipWhile p s cur) = skipWhile p s cur :=
  skipWhile_eq_self (head_drop_skipWhile p s cur)

/-! ### Words -/

/-- A word at a position. -/
structure WordAt (s : Str) (cur : ℕ) (w : Str) : Prop where
  drop_eq : s.drop cur = w ++ s.drop (cur + w.length)
  isWord : IsWord w (s.drop (cur + w.length))

theorem WordAt.of_drop (h : s.drop cur = w ++ rest) (hw : IsWord w rest) : WordAt s cur w := by
  obtain rfl := drop_add_of_drop h
  exact ⟨h, hw⟩

namespace WordAt

variable (h : WordAt s cur w)
include h

theorem length_pos : 0 < w.length := length_pos_iff.mpr h.isWord.ne_nil

theorem skipWord_eq : skipWord s cur = cur + w.length :=
  skipWhile_of_drop h.drop_eq h.isWord.chars h.isWord.ends

theorem end_le : cur + w.length ≤ s.length := by
  have hlen := congrArg List.length h.drop_eq
  have hpos := h.length_pos
  rw [length_append, length_drop, length_drop] at hlen
  omega

theorem wordChar_getD : wordChar (s.getD cur 0) = true := by
  obtain ⟨c, cs, hw⟩ := exists_cons_of_ne_nil h.isWord.ne_nil
  have hdrop := h.drop_eq
  rw [hw, cons_append] at hdrop
  rw [getD_of_drop hdrop]
  exact h.isWord.chars c (hw ▸ mem_cons_self)

theorem end_notWordChar (c : UInt8) (hc : s[cur + w.length]? = some c) : wordChar c = false := by
  refine h.isWord.ends c ?_
  rw [head?_drop, mem_def, hc]

end WordAt

/-- Where `skip_word` moves on there is a word. -/
theorem exists_wordAt (h : cur < skipWord s cur) :
    ∃ w, WordAt s cur w ∧ skipWord s cur = cur + w.length := by
  refine ⟨(s.drop cur).takeWhile wordChar, .of_drop takeWhile_append_dropWhile.symm
    ⟨?_, fun c hc => mem_takeWhile_imp hc, ?_⟩, rfl⟩
  · intro hnil
    rw [skipWord, skipWhile, hnil] at h
    exact absurd h (Nat.lt_irrefl _)
  · rw [← drop_skipWhile]
    exact head_drop_skipWhile wordChar s cur

/-! ### Tokens -/

/-- The position after the one or two characters of a redirection and the spaces behind them. -/
def afterSign (s : Str) (cur : ℕ) (twice : Bool) : ℕ :=
  skipSpace s (if twice then cur + 2 else cur + 1)

theorem skipSpace_sign (s : Str) (cur : ℕ) (twice : Bool) :
    skipSpace s (if twice then cur + 2 else cur + 1) = afterSign s cur twice := rfl

/-- The token the passes find at a position, and where it ends. -/
inductive Token.Scan (s : Str) (cur : ℕ) : Token → ℕ → Prop
  | word {w : Str} (h : WordAt s cur w) : Scan s cur (.word w) (cur + w.length)
  | input {w : Str} {here : Bool} (hc : s.getD cur 0 = lt) (hhere : s[cur + 1]? = some lt ↔ here = true)
      (h : WordAt s (afterSign s cur here) w) :
      Scan s cur (.input here w) (afterSign s cur here + w.length)
  | output {w : Str} {append : Bool} (hc : s.getD cur 0 = gt) (happ : s[cur + 1]? = some gt ↔ append = true)
      (h : WordAt s (afterSign s cur append) w) :
      Scan s cur (.output append w) (afterSign s cur append + w.length)
  | pipe (hlt : cur < s.length) (hc : s.getD cur 0 = bar) : Scan s cur .pipe (cur + 1)

theorem Token.Scan.bounds (h : t.Scan s cur next) : cur < next ∧ next ≤ s.length := by
  cases h with
  | word h => exact ⟨Nat.lt_add_of_pos_right h.length_pos, h.end_le⟩
  | @input w here _ _ h =>
    have hle : (if here then cur + 2 else cur + 1) ≤ afterSign s cur here := le_skipWhile ..
    have hpos := h.length_pos
    refine ⟨?_, h.end_le⟩
    split at hle <;> omega
  | @output w append _ _ h =>
    have hle : (if append then cur + 2 else cur + 1) ≤ afterSign s cur append := le_skipWhile ..
    have hpos := h.length_pos
    refine ⟨?_, h.end_le⟩
    split at hle <;> omega
  | pipe hlt _ => exact ⟨Nat.lt_succ_self _, hlt⟩

/-- The word behind the sign of a redirection. -/
theorem wordAt_afterSign (sign : Str) (twice : Bool) (hs : s.drop cur = sign ++ (sp ++ (w ++ rest)))
    (hsign : sign.length = if twice then 2 else 1) (hsp : Spaces sp) (hw : IsWord w rest) :
    WordAt s (afterSign s cur twice) w ∧ s.drop (afterSign s cur twice + w.length) = rest := by
  have hstart : s.drop (if twice then cur + 2 else cur + 1) = sp ++ (w ++ rest) := by
    rw [← drop_add_of_drop hs, hsign]
    split <;> rfl
  have hhead : ∀ c ∈ (w ++ rest).head?, isspace c = false := by
    obtain ⟨c, cs, rfl⟩ := exists_cons_of_ne_nil hw.ne_nil
    rintro d hd
    cases hd
    exact not_isspace_of_wordChar (hw.chars c mem_cons_self)
  have hafter : s.drop (afterSign s cur twice) = w ++ rest := by
    rw [afterSign, skipSpace, skipWhile_of_drop hstart hsp hhead]
    exact drop_add_of_drop hstart
  exact ⟨.of_drop hafter hw, drop_add_of_drop hafter⟩

theorem head_ne_sign (hsp : Spaces sp) (hw : IsWord w rest) :
    (sp ++ (w ++ rest)).head? ≠ some lt ∧ (sp ++ (w ++ rest)).head? ≠ some gt := by
  obtain ⟨c, cs, rfl⟩ := exists_cons_of_ne_nil hw.ne_nil
  cases sp with
  | nil =>
    have hc := hw.chars c mem_cons_self
    constructor <;> · rintro ⟨rfl⟩; exact absurd hc (by decide)
  | cons d sp =>
    have hd := hsp d mem_cons_self
    constructor <;> · rintro ⟨rfl⟩; exact absurd hd (by decide)

/-- A token of the grammar is found. -/
theorem Token.At.scan (h : t.At (s.drop cur) rest) :
    ∃ next, t.Scan s cur next ∧ s.drop next = rest := by
  generalize hs : s.drop cur = u at h
  cases h with
  | word hw => exact ⟨_, .word (.of_drop hs hw), drop_add_of_drop hs⟩
  | @input sp w _ hsp hw =>
    obtain ⟨hword, hrest⟩ := wordAt_afterSign [lt] false hs rfl hsp hw
    refine ⟨_, .input (getD_of_drop hs) ?_ hword, hrest⟩
    rw [getElem?_succ_of_drop hs]
    exact iff_of_false (head_ne_sign hsp hw).1 Bool.false_ne_true
  | hereDocument hsp hw =>
    obtain ⟨hword, hrest⟩ := wordAt_afterSign [lt, lt] true hs rfl hsp hw
    refine ⟨_, .input (getD_of_drop hs) ?_ hword, hrest⟩
    rw [getElem?_succ_of_drop hs]
    exact iff_of_true rfl rfl
  | output hsp hw =>
    obtain ⟨hword, hrest⟩ := wordAt_afterSign [gt] false hs rfl hsp hw
    refine ⟨_, .output (getD_of_drop hs) ?_ hword, hrest⟩
    rw [getElem?_succ_of_drop hs]
    exact iff_of_false (head_ne_sign hsp hw).2 Bool.false_ne_true
  | append hsp hw =>
    obtain ⟨hword, hrest⟩ := wordAt_afterSign [gt, gt] true hs rfl hsp hw
    refine ⟨_, .output (getD_of_drop hs) ?_ hword, hrest⟩
    rw [getElem?_succ_of_drop hs]
    exact iff_of_true rfl rfl
  | pipe =>
    refine ⟨cur + 1, .pipe (lt_length_of_drop hs) (getD_of_drop hs), ?_⟩
    exact drop_add_of_drop (w := [bar]) hs

/-- The text from the sign of a redirection on, when it stands once or twice. -/
theorem drop_sign {twice : Bool} {sign : UInt8} (hc : s.getD cur 0 = sign)
    (htwice : s[cur + 1]? = some sign ↔ twice = true) (h : WordAt s (afterSign s cur twice) w) :
    ∃ sp, Spaces sp ∧ s.drop cur = (if twice then [sign, sign] else [sign]) ++
      (sp ++ (w ++ s.drop (afterSign s cur twice + w.length))) := by
  have hend := h.end_le
  have hpos := h.length_pos
  have hle : (if twice then cur + 2 else cur + 1) ≤ afterSign s cur twice := le_skipWhile ..
  have hone : s.drop cur = sign :: s.drop (cur + 1) := by
    rw [drop_eq_cons (by split at hle <;> omega), hc]
  have hsigns : s.drop cur =
      (if twice then [sign, sign] else [sign]) ++ s.drop (if twice then cur + 2 else cur + 1) := by
    cases twice with
    | false => exact hone
    | true =>
      have hlt : cur + 1 < s.length := by
        simp only [if_true] at hle
        omega
      have hsecond : s.getD (cur + 1) 0 = sign := by
        rw [getD_eq_getElem?_getD, htwice.mpr rfl, getD_some]
      rw [hone, drop_eq_cons hlt, hsecond]
      rfl
  refine ⟨(s.drop (if twice then cur + 2 else cur + 1)).takeWhile isspace,
    fun c hc => mem_takeWhile_imp hc, ?_⟩
  rw [hsigns, ← h.drop_eq, afterSign, skipSpace, drop_skipWhile, takeWhile_append_dropWhile]

/-- What is found is a token of the grammar. -/
theorem Token.Scan.at (h : t.Scan s cur next) : t.At (s.drop cur) (s.drop next) := by
  cases h with
  | word h =>
    rw [h.drop_eq]
    exact .word h.isWord
  | @input w here hc hhere h =>
    obtain ⟨sp, hsp, hs⟩ := drop_sign hc hhere h
    rw [hs]
    cases here with
    | false => exact .input hsp h.isWord
    | true => exact .hereDocument hsp h.isWord
  | @output w append hc happ h =>
    obtain ⟨sp, hsp, hs⟩ := drop_sign hc happ h
    rw [hs]
    cases append with
    | false => exact .output hsp h.isWord
    | true => exact .append hsp h.isWord
  | pipe hlt hc =>
    rw [drop_eq_cons hlt, hc]
    exact .pipe

/-- A token does not start with a space. -/
theorem Token.Scan.not_isspace (h : t.Scan s cur next) : isspace (s.getD cur 0) = false := by
  cases h with
  | word h => exact not_isspace_of_wordChar h.wordChar_getD
  | input hc _ _ | output hc _ _ | pipe _ hc =>
    rw [hc]
    rfl

/-! ### Texts -/

theorem skipSpace_of_scan (hs : s.drop cur = sp ++ rest) (hsp : Spaces sp)
    (h : t.Scan s (cur + sp.length) next) : skipSpace s cur = cur + sp.length := by
  have hbounds := h.bounds
  refine skipWhile_of_drop hs hsp ?_
  rw [← drop_add_of_drop hs, drop_eq_cons (by omega)]
  rintro c ⟨rfl⟩
  exact h.not_isspace

theorem text_nil_iff : Text (s.drop cur) [] ↔ s.length ≤ skipSpace s cur := by
  rw [← drop_eq_nil_iff, skipSpace, drop_skipWhile, dropWhile_eq_nil_iff]
  constructor
  · intro h
    generalize s.drop cur = u at h ⊢
    cases h with
    | blank hsp => exact hsp
  · exact .blank

theorem text_cons_iff :
    Text (s.drop cur) (t :: ts) ↔
      ∃ next, t.Scan s (skipSpace s cur) next ∧ Text (s.drop next) ts := by
  constructor
  · intro h
    generalize hs : s.drop cur = u at h
    cases h with
    | token hsp ht hts =>
      rw [← drop_add_of_drop hs] at ht
      obtain ⟨next, hscan, rfl⟩ := ht.scan
      rw [skipSpace_of_scan hs hsp hscan]
      exact ⟨next, hscan, hts⟩
  · rintro ⟨next, hscan, hts⟩
    rw [← takeWhile_append_dropWhile (p := isspace) (l := s.drop cur), ← drop_skipWhile]
    exact .token (fun c hc => mem_takeWhile_imp hc) hscan.at hts

end OsPi.Shell
