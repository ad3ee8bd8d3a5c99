import PointerChannels.Yaml.Layout
import Mathlib.Data.List.Basic
import Mathlib.Data.List.Chain
import Mathlib.Data.Option.Basic

/-!
# Lines of keys and words

Many texts are nothing but lines, each with a key and perhaps a value behind it, both of them
words of letters, digits and underscores, and the indentation of a line tells what it belongs
to.  Of such a text every line has the same tokens wherever it stands; what the indentation
adds are the tokens in front of it, where collections end and where one starts.

## Main definitions

* `Word`, `Key`, `Line` — a word, one that may be a key, a line of a text.
* `Line.tokensFrom` — the tokens of lines, given the collections that are open.

## Main statements

* `Line.tokens?_text` — these are the tokens that the layout finds.
-/

namespace PointerChannels.Yaml

/-! ## Words -/

/-- The characters of words. -/
def isWordChar (c : Char) : Bool := c.isAlphanum || c = '_'

/-- A word: at least one character, all of them letters, digits or underscores. -/
structure Word where
  /-- Its characters. -/
  chars : List Char
  /-- There is one. -/
  ne_nil : chars ≠ []
  /-- None is anything else. -/
  all_word : ∀ c ∈ chars, isWordChar c = true

/-- The text of a word. -/
def Word.text (w : Word) : String := String.ofList w.chars

theorem Word.exists_cons (w : Word) : ∃ c rest, w.chars = c :: rest ∧ isWordChar c = true := by
  obtain ⟨c, rest, hw⟩ := List.exists_cons_of_ne_nil w.ne_nil
  exact ⟨c, rest, hw, w.all_word c (by simp [hw])⟩

/-- A word that is short enough to be found to be a key. -/
structure Key extends Word where
  /-- It is short. -/
  short : chars.length ≤ 1024

/-- The text is that of a word. -/
def IsWord (text : String) : Prop := text.toList ≠ [] ∧ text.toList.all isWordChar = true

instance (text : String) : Decidable (IsWord text) := inferInstanceAs (Decidable (_ ∧ _))

/-- The word of a text. -/
def Word.of (text : String) (h : IsWord text) : Word :=
  ⟨text.toList, h.1, List.all_eq_true.1 h.2⟩

@[simp] theorem Word.text_of {text : String} (h : IsWord text) : (of text h).text = text :=
  String.ofList_toList

/-- The key of a text. -/
def Key.of (text : String) (h : IsWord text ∧ text.toList.length ≤ 1024) : Key :=
  ⟨.of text h.1, h.2⟩

@[simp] theorem Key.toWord_of {text : String} (h : IsWord text ∧ text.toList.length ≤ 1024) :
    (of text h).toWord = .of text h.1 := rfl

theorem ne_of_isWordChar {c d : Char} (hc : isWordChar c = true) (hd : isWordChar d = false) :
    c ≠ d := by
  rintro rfl
  exact absurd (hc.symm.trans hd) (by simp)

section

variable {c : Char} (hc : isWordChar c = true)

include hc

theorem isBreak_eq_false : isBreak c = false := by
  simp [isBreak, ne_of_isWordChar hc (d := '\n') rfl, ne_of_isWordChar hc (d := '\u2028') rfl,
    ne_of_isWordChar hc (d := '\u2029') rfl]

theorem isSpacing_eq_false : isSpacing c = false := by
  simp [isSpacing, isBreak_eq_false hc, isBlank, ne_of_isWordChar hc (d := ' ') rfl,
    ne_of_isWordChar hc (d := '\t') rfl]

theorem startsMarker_eq_false (cs : List Char) : startsMarker (c :: cs) = false := by
  unfold startsMarker
  split
  · next heq => exact absurd (List.cons.inj heq).1 (ne_of_isWordChar hc rfl)
  · next heq => exact absurd (List.cons.inj heq).1 (ne_of_isWordChar hc rfl)
  · rfl

/-- A word is no mark. -/
theorem Layout.step_eq_word {s : Layout} (cs : List Char) (hrest : s.cursor.rest = c :: cs) :
    s.step = s.word := by
  have hmarks :
      ['%', '[', '\x7b', ']', '\x7d', ',', '-', '?', ':', '*', '&', '!', '|', '>', '\x27',
      '\x22', '#', '@', '\x60'].all (!isWordChar ·) = true := rfl
  have hne := fun d hd => ne_of_isWordChar hc (by simpa using List.all_eq_true.1 hmarks d hd)
  simp only [List.forall_mem_cons] at hne
  simp [step, hrest, hne, startsMarker_eq_false hc, startsPlain,
    isSpacing_eq_false hc, isIndicator, isFlowMark]

/-- No spacing is passed over in front of a word. -/
theorem Layout.skipSpacing_word {flow keyAllowed : Bool} {p : Place} {cs : List Char} :
    skipSpacing flow keyAllowed false p (c :: cs) = (keyAllowed, ⟨p, c :: cs⟩) := by
  simp [skipSpacing, isBreak_eq_false hc, ne_of_isWordChar hc (d := '#') rfl,
    ne_of_isWordChar hc (d := ' ') rfl, ne_of_isWordChar hc (d := '\t') rfl,
    ne_of_isWordChar hc (d := '\ufeff') rfl]

theorem Place.after_eq_right {p : Place} : p.after c = p.right 1 := by
  simp [after, right, isBreak_eq_false hc]

end

theorem Place.right_right {p : Place} {m n : Nat} : (p.right m).right n = p.right (m + n) := by
  simp [right, Nat.add_assoc]

/-- The place at a column of the next line. -/
def Place.below (p : Place) (column : Nat) : Place :=
  ⟨p.index + 1 + column, p.line + 1, column⟩

/-! ## Scalars -/

variable {least : Nat} {p : Place} {cs : List Char}

/-- A plain scalar takes in the characters of a word. -/
theorem plain_word_append (w : List Char) (hw : ∀ c ∈ w, isWordChar c = true) :
    plain false least [] p (w ++ cs) =
      (plain false least [] (p.right w.length) cs).map fun r => (w ++ r.1, r.2) := by
  induction w generalizing p with
  | nil => simp [Place.right]
  | cons c w ih =>
      have hc := hw c List.mem_cons_self
      have hends : endsPlain false least [] p c (w ++ cs) = false := by
        simp [endsPlain, startsMarker_eq_false hc, ne_of_isWordChar hc (d := ':') rfl]
      have hnext := ih (p := p.right 1) fun d hd => hw d (List.mem_cons_of_mem c hd)
      rw [List.cons_append, plain, isSpacing_eq_false hc, hends,
        Place.after_eq_right hc, hnext, Place.right_right, List.length_cons, Nat.add_comm 1]
      cases plain false least [] (p.right (w.length + 1)) cs <;> simp [foldSpacing]

/-- A plain scalar ends in front of a colon. -/
theorem plain_colon (h : endsWord cs = true) :
    plain false least [] p (':' :: cs) = some ([], false, ⟨p, ':' :: cs⟩) := by
  simp [plain, endsPlain, h, isSpacing, isBlank, isBreak]

theorem plain_spaces {spacing : List Char} (k : Nat) :
    plain false least spacing p (List.replicate k ' ' ++ cs) =
      plain false least (spacing ++ List.replicate k ' ') (p.right k) cs := by
  induction k generalizing p spacing with
  | zero => simp [Place.right]
  | succ k ih =>
      have hafter : p.after ' ' = p.right 1 := rfl
      have hspacing : isSpacing ' ' = true := rfl
      rw [List.replicate_succ, List.cons_append, plain, if_pos hspacing,
        if_neg (by simp), hafter, ih, Place.right_right, Nat.add_comm 1, List.append_assoc,
        List.singleton_append]

/-- What may follow a break and the indentation behind it: nothing, or a word. -/
def StartsLine (cs : List Char) : Prop := ∀ c ∈ cs.head?, isWordChar c = true

/-- A plain scalar ends with its line, unless the next one is indented as its continuation. -/
theorem plain_break {k : Nat} (hcs : StartsLine cs) (hk : k < least) :
    plain false least [] p ('\n' :: (List.replicate k ' ' ++ cs)) =
      some ([], true, ⟨p.below k, cs⟩) := by
  have hplace : (p.after '\n').right k = p.below k := by
    simp [Place.after, Place.right, Place.below, isBreak]
  have hspacing : isSpacing '\n' = true := rfl
  have hbroken : (['\n'] ++ List.replicate k ' ').any isBreak = true := by simp [isBreak]
  rw [plain, if_pos hspacing, if_neg (by simp), List.nil_append, plain_spaces, hplace]
  cases cs with
  | nil => rw [plain, hbroken]
  | cons c cs =>
      have hc : isWordChar c = true := hcs c rfl
      have hends :
          endsPlain false least (['\n'] ++ List.replicate k ' ') (p.below k) c cs = true := by
        simp only [endsPlain, hbroken]
        simp [Place.below, hk]
      rw [plain, isSpacing_eq_false hc, hends, hbroken]
      rfl

/-! ## Indentation -/

namespace Layout

/-- The tokens in front of a key at a column: there end the collections that it does not belong
to, and one starts if the key is the first of it. -/
def opening (least : Nat) (outer : List Nat) (column : Nat) : List Token :=
  let ended := unwind (column + 1) least outer
  List.replicate ended.1 .blockEnd ++ if column < ended.2.1 then [] else [.blockStart .mapping]

/-- The collections around that of a key at a column. -/
def enclosing (least : Nat) (outer : List Nat) (column : Nat) : List Nat :=
  let left := (unwind (column + 1) least outer).2
  if column < left.1 then left.2 else left.1 :: left.2

end Layout

/-! ## Lines -/

/-- A line of a text: a key and perhaps a value, behind some spaces. -/
structure Line where
  /-- The number of spaces. -/
  indent : Nat
  /-- The key. -/
  key : Key
  /-- The value. -/
  value : Option Word

namespace Line

/-- What stands behind the colon of a key. -/
def valueChars (l : Line) : List Char := (l.value.map (' ' :: ·.chars)).getD []

/-- The text of lines. -/
def text : List Line → List Char
  | [] => []
  | l :: ls =>
    List.replicate l.indent ' ' ++ (l.key.chars ++ ':' :: (l.valueChars ++ '\n' :: text ls))

/-- The indentation at which lines start. -/
def column : List Line → Nat
  | [] => 0
  | l :: _ => l.indent

/-- The text of lines without the indentation at which they start. -/
def unindented : List Line → List Char
  | [] => []
  | l :: ls => l.key.chars ++ ':' :: (l.valueChars ++ '\n' :: text ls)

theorem text_eq (ls : List Line) :
    text ls = List.replicate (column ls) ' ' ++ unindented ls := by
  cases ls <;> rfl

theorem startsLine_unindented (ls : List Line) : StartsLine (unindented ls) := by
  cases ls with
  | nil => simp [unindented, StartsLine]
  | cons l ls =>
      obtain ⟨c, cs, hcs, hc⟩ := l.key.exists_cons
      simpa [unindented, StartsLine, hcs] using hc

/-- The tokens of a line, wherever it stands. -/
def tokens (l : Line) : List Token :=
  .key :: .scalar .plain l.key.text :: .value :: (l.value.map (.scalar .plain ·.text)).toList

/-- The tokens of lines, given the columns of the collections that are open. -/
def tokensFrom (least : Nat) (outer : List Nat) : List Line → List Token
  | [] => List.replicate (Layout.unwind 0 least outer).1 .blockEnd
  | l :: ls =>
    Layout.opening least outer l.indent ++ (l.tokens ++
      tokensFrom (l.indent + 1) (Layout.enclosing least outer l.indent) ls)

end Line

/-! ## Steps of the layout -/

namespace Layout

variable {ts : List Token} {outer : List Nat} {keyAllowed : Bool}
  {candidate : Option Candidate}

/-- The collections that are open, with the whole text around them. -/
def Grounded : Nat → List Nat → Prop
  | least, [] => least = 0
  | _, next :: outer => Grounded next outer

theorem Grounded.unwind (h : Grounded least outer) (bound : Nat) :
    (Layout.unwind bound least outer).2.1 ≤ bound ∧
      Grounded (Layout.unwind bound least outer).2.1
        (Layout.unwind bound least outer).2.2 := by
  induction outer generalizing least with
  | nil =>
      have hzero : least = 0 := h
      simp [Layout.unwind, hzero, Grounded]
  | cons next outer ih =>
      rw [Layout.unwind]
      split
      · exact ih h
      · next hbound => exact ⟨Nat.le_of_not_lt hbound, h⟩

/-- A key leaves all that is around its collection. -/
theorem Grounded.enclosing (h : Grounded least outer) (column : Nat) :
    Grounded (column + 1) (Layout.enclosing least outer column) := by
  obtain ⟨hle, hleft⟩ := h.unwind (column + 1)
  unfold Layout.enclosing
  dsimp only
  split
  · next hlt =>
      have heq : (Layout.unwind (column + 1) least outer).2.1 = column + 1 := by omega
      rwa [heq] at hleft
  · exact hleft

/-- Collections may end one after the other. -/
theorem unwind_unwind (bound : Nat) : (unwind bound least outer).1 +
    (unwind 0 (unwind bound least outer).2.1 (unwind bound least outer).2.2).1 =
      (unwind 0 least outer).1 := by
  induction outer generalizing least with
  | nil => simp [unwind]
  | cons next outer ih =>
      by_cases hbound : bound < least
      · have hzero : 0 < least := by omega
        simp [unwind, hbound, hzero, ← @ih next, Nat.add_right_comm]
      · simp [unwind, hbound]

/-- Going on to the next token outside brackets. -/
theorem advance_eq {keyAllowed' : Bool} {p' : Place} {cs' : List Char}
    {candidate' : Option Candidate}
    (hskip : skipSpacing false keyAllowed false p cs = (keyAllowed', ⟨p', cs'⟩))
    (hnear : keepNear p' candidate = some candidate') :
    (⟨⟨p, cs⟩, ts, keyAllowed, candidate, [], least, outer⟩ : Layout).advance =
      some ⟨⟨p', cs'⟩, ts ++ List.replicate (unwind (p'.column + 1) least outer).1 .blockEnd,
        keyAllowed', candidate', [], (unwind (p'.column + 1) least outer).2.1,
        (unwind (p'.column + 1) least outer).2.2⟩ := by
  simp [advance, inBrackets, hskip, dropFar, hnear, closeBlocks, column]

theorem unwind_of_le {bound : Nat} (h : least ≤ bound) :
    unwind bound least outer = (0, least, outer) := by
  cases outer with
  | nil => rfl
  | cons next outer => rw [unwind, if_neg (by omega)]

/-- A word where a key may start is remembered. -/
theorem step_key (w : Word) (hcs : endsWord cs = true) :
    (⟨⟨p, w.chars ++ ':' :: cs⟩, ts, true, none, [], least, outer⟩ : Layout).step =
      some ⟨⟨p.right w.chars.length, ':' :: cs⟩, ts ++ [.scalar .plain w.text], false,
        some ⟨decide (least = p.column + 1), p, ts.length⟩, [], least, outer⟩ := by
  obtain ⟨c, rest, hw, hc⟩ := w.exists_cons
  rw [step_eq_word hc (rest ++ ':' :: cs) (by simp [hw])]
  simp [word, saveCandidate, dropCandidate, inBrackets, column, emit,
    plain_word_append _ w.all_word, plain_colon hcs, Word.text]
  rfl

/-- The colon behind a word makes it a key. -/
theorem step_value {token : Token} {p' : Place} {required : Bool} (hcs : endsWord cs = true)
    (hleast : least ≤ p.column + 1) :
    (⟨⟨p', ':' :: cs⟩, ts ++ [token], false, some ⟨required, p, ts.length⟩, [], least, outer⟩ :
      Layout).step =
      some ⟨⟨p'.right 1, cs⟩,
        ts ++ ((if p.column < least then [] else [.blockStart .mapping]) ++
          [.key, token, .value]),
        false, none, [], p.column + 1,
        if p.column < least then outer else least :: outer⟩ := by
  have hstep :
      (⟨⟨p', ':' :: cs⟩, ts ++ [token], false, some ⟨required, p, ts.length⟩, [],
        least, outer⟩ :
      Layout).step =
        (⟨⟨p', ':' :: cs⟩, ts ++ [token], false, some ⟨required, p, ts.length⟩, [], least,
        outer⟩ : Layout).value := by
    simp [step, startsMarker, hcs]
  rw [hstep]
  simp only [value, openBlock, inBrackets, emit, Cursor.skip]
  by_cases hcolumn : p.column < least
  · have heq : least = p.column + 1 := by omega
    simp [heq]
  · simp [hcolumn]

/-- A word where no key may start is a value. -/
theorem step_word (w : Word) {k : Nat} (hcs : StartsLine cs) (hk : k < least) :
    (⟨⟨p, w.chars ++ '\n' :: (List.replicate k ' ' ++ cs)⟩, ts, false, none, [],
      least, outer⟩ :
      Layout).step =
      some ⟨⟨(p.right w.chars.length).below k, cs⟩, ts ++ [.scalar .plain w.text], true,
        none, [], least, outer⟩ := by
  obtain ⟨c, rest, hw, hc⟩ := w.exists_cons
  rw [step_eq_word hc (rest ++ '\n' :: (List.replicate k ' ' ++ cs)) (by simp [hw])]
  simp [word, saveCandidate, inBrackets, emit, plain_word_append _ w.all_word,
    plain_break hcs hk, Word.text]

theorem run_succ {s t : Layout} (n : Nat) (hadvance : s.advance = some t)
    (hrest : t.cursor.rest ≠ []) : run (n + 1) s = t.step.bind (run n) := by
  simp [run, hadvance, hrest]

theorem skipSpacing_eq (hcs : StartsLine cs) :
    skipSpacing false keyAllowed false p cs = (keyAllowed, ⟨p, cs⟩) := by
  cases cs with
  | nil => rfl
  | cons c cs => exact skipSpacing_word (hcs c rfl)

/-- Spaces are passed over. -/
theorem skipSpacing_spaces (k : Nat) (hcs : StartsLine cs) :
    skipSpacing false keyAllowed false p (List.replicate k ' ' ++ cs) =
      (keyAllowed, ⟨p.right k, cs⟩) := by
  induction k generalizing p with
  | zero => simp [skipSpacing_eq hcs, Place.right]
  | succ k ih =>
      have hafter : p.after ' ' = p.right 1 := rfl
      simp [List.replicate_succ, skipSpacing, isBreak, hafter, ih, Place.right_right,
        Nat.add_comm 1]

/-- Behind the colon of a key without a value, the next line comes. -/
theorem skipSpacing_break (k : Nat) (hcs : StartsLine cs) :
    skipSpacing false false false p ('\n' :: (List.replicate k ' ' ++ cs)) =
      (true, ⟨p.below k, cs⟩) := by
  have hplace : (p.after '\n').right k = p.below k := by
    simp [Place.after, Place.right, Place.below, isBreak]
  simp [skipSpacing, isBreak, skipSpacing_spaces k hcs, hplace]

theorem advance_spaces (k : Nat) (hcs : StartsLine cs) :
    (⟨⟨p, List.replicate k ' ' ++ cs⟩, ts, keyAllowed, none, [], least, outer⟩ :
      Layout).advance =
      (⟨⟨p.right k, cs⟩, ts, keyAllowed, none, [], least, outer⟩ : Layout).advance := by
  have hnear : keepNear (p.right k) none = some none := rfl
  rw [advance_eq (skipSpacing_spaces k hcs) hnear, advance_eq (skipSpacing_eq hcs) hnear]

theorem advance_break (k : Nat) (hcs : StartsLine cs) :
    (⟨⟨p, '\n' :: (List.replicate k ' ' ++ cs)⟩, ts, false, none, [], least, outer⟩ :
      Layout).advance =
      (⟨⟨p.below k, cs⟩, ts, true, none, [], least, outer⟩ : Layout).advance := by
  have hnear : keepNear (p.below k) none = some none := rfl
  rw [advance_eq (skipSpacing_break k hcs) hnear, advance_eq (skipSpacing_eq hcs) hnear]

/-- A line where a key may start, up to the text behind its colon. -/
theorem run_key (l : Line) (n : Nat) (hcs : endsWord cs = true) (hleast : Grounded least outer)
    (hcolumn : p.column = l.indent) :
    run (n + 2) ⟨⟨p, l.key.chars ++ ':' :: cs⟩, ts, true, none, [], least, outer⟩ =
      run n ⟨⟨p.right (l.key.chars.length + 1), cs⟩,
        ts ++ (opening least outer l.indent ++ [.key, .scalar .plain l.key.text, .value]),
        false, none, [], l.indent + 1, enclosing least outer l.indent⟩ := by
  obtain ⟨c, rest, hkey, hc⟩ := l.key.exists_cons
  have hskip : skipSpacing false true false p (l.key.chars ++ ':' :: cs) =
      (true, ⟨p, l.key.chars ++ ':' :: cs⟩) := by
    rw [hkey, List.cons_append, skipSpacing_word hc]
  have hskip' : skipSpacing false false false (p.right l.key.chars.length) (':' :: cs) =
      (false, ⟨p.right l.key.chars.length, ':' :: cs⟩) := by
    simp [skipSpacing, isBreak]
  have hnear : ∀ required position,
      keepNear (p.right l.key.chars.length) (some ⟨required, p, position⟩) =
        some (some ⟨required, p, position⟩) := by
    have hshort := l.key.short
    intro required position
    simp [keepNear, tooFar, Place.right]
    omega
  have hstay :
      (unwind (p.column + 1) least outer).2.1 ≤ (p.right l.key.chars.length).column + 1 := by
    have hle := (hleast.unwind (p.column + 1)).1
    simp only [Place.right]
    omega
  rw [run_succ (n + 1) (advance_eq hskip rfl) (by simp [hkey]), step_key _ hcs,
    Option.bind_some, run_succ n (advance_eq hskip' (hnear _ _)) (by simp), unwind_of_le hstay,
    List.replicate_zero, List.append_nil, step_value hcs (hleast.unwind (p.column + 1)).1,
    Option.bind_some, Place.right_right, hcolumn, opening, enclosing, List.append_assoc,
    List.append_assoc]

/-- The value behind a colon, up to the next line. -/
theorem run_value (w : Word) {k : Nat} (n : Nat) (hcs : StartsLine cs) (hk : k < least)
    (hleast : least ≤ p.column + 2) :
    run (n + 1) ⟨⟨p, ' ' :: (w.chars ++ '\n' :: (List.replicate k ' ' ++ cs))⟩, ts, false,
      none, [], least, outer⟩ =
      run n ⟨⟨(p.right (1 + w.chars.length)).below k, cs⟩, ts ++ [.scalar .plain w.text],
        true, none, [], least, outer⟩ := by
  obtain ⟨c, rest, hw, hc⟩ := w.exists_cons
  have hword : StartsLine (w.chars ++ '\n' :: (List.replicate k ' ' ++ cs)) := by
    simpa [StartsLine, hw] using hc
  have hskip : skipSpacing false false false p
      (' ' :: (w.chars ++ '\n' :: (List.replicate k ' ' ++ cs))) =
        (false, ⟨p.right 1, w.chars ++ '\n' :: (List.replicate k ' ' ++ cs)⟩) :=
    skipSpacing_spaces 1 hword
  have hnear : keepNear (p.right 1) none = some none := rfl
  have hstay : least ≤ (p.right 1).column + 1 := hleast
  rw [run_succ n (advance_eq hskip hnear) (by simp), unwind_of_le hstay, List.replicate_zero,
    List.append_nil, step_word w hcs hk, Option.bind_some, Place.right_right]

/-- Only what comes after the spacing matters. -/
theorem run_congr {s t : Layout} (h : s.advance = t.advance) (n : Nat) :
    run n s = run n t := by
  cases n with
  | zero => rfl
  | succ n => rw [run, run, h]

end Layout

/-! ## Texts of lines -/

namespace Line

open Layout

/-- A line with a value takes in no deeper line. -/
def Ends (a b : Line) : Prop := a.value.isSome = true → b.indent ≤ a.indent

theorem column_le_of_ends {l : Line} {ls : List Line} (h : (l :: ls).IsChain Ends)
    (hvalue : l.value.isSome = true) : column ls < l.indent + 1 := by
  cases ls with
  | nil => exact Nat.succ_pos _
  | cons next ls =>
      have hends : Ends l next := (List.isChain_cons_cons.1 h).1
      exact Nat.lt_succ_of_le (hends hvalue)

/-- **The tokens of lines**, from where the first one starts. -/
theorem run_unindented {ls : List Line} (hls : ls.IsChain Ends) {n : Nat}
    (hn : 3 * ls.length ≤ n) {ts : List Token} {outer : List Nat}
    (hleast : Grounded least outer) (hcolumn : p.column = column ls) :
    run (n + 1) ⟨⟨p, unindented ls⟩, ts, true, none, [], least, outer⟩ =
      some (ts ++ tokensFrom least outer ls) := by
  induction ls generalizing n p ts least outer with
  | nil =>
      have hskip : skipSpacing false true false p [] = (true, ⟨p, []⟩) := rfl
      have hnear : keepNear p none = some none := rfl
      rw [unindented, run, advance_eq hskip hnear, tokensFrom, ← unwind_unwind (p.column + 1)]
      simp [finish, closeBlocks, inBrackets, dropCandidate]
  | cons l ls ih =>
      have hrest : ls.IsChain Ends := hls.of_cons
      have hstarts := startsLine_unindented ls
      have hgrounded := hleast.enclosing l.indent
      obtain ⟨n, rfl⟩ : ∃ k, n = k + 3 := ⟨n - 3, by simp at hn; omega⟩
      have hn : 3 * ls.length ≤ n := by simp at hn; omega
      rw [unindented, text_eq, tokensFrom, tokens]
      cases hvalue : l.value with
      | none =>
          rw [valueChars, hvalue, Option.map_none, Option.getD_none, List.nil_append,
            run_key l (n + 2) rfl hleast hcolumn, run_congr (advance_break _ hstarts),
            ih hrest (by omega) hgrounded rfl]
          simp
      | some w =>
          have hk := column_le_of_ends hls (by simp [hvalue])
          have hleast' : l.indent + 1 ≤ (p.right (l.key.chars.length + 1)).column + 2 := by
            simp only [Place.right, hcolumn, column]
            omega
          rw [valueChars, hvalue, Option.map_some, Option.getD_some, List.cons_append,
            run_key l (n + 2) rfl hleast hcolumn, run_value w (n + 1) hstarts hk hleast',
            ih hrest (by omega) hgrounded rfl]
          simp

theorem length_le_text (ls : List Line) : 3 * ls.length ≤ (text ls).length := by
  induction ls with
  | nil => simp
  | cons l ls ih =>
      have hkey := List.length_pos_iff.2 l.key.ne_nil
      simp only [text, List.length_cons, List.length_append]
      omega

/-- **The tokens of a text of lines.** -/
theorem tokens?_text {ls : List Line} (hls : ls.IsChain Ends) :
    tokens? (text ls) = some (tokensFrom 0 [] ls) := by
  have hstarts := startsLine_unindented ls
  have hgrounded : Grounded 0 [] := rfl
  rw [tokens?, text_eq, start, run_congr (advance_spaces _ hstarts), ← text_eq,
    run_unindented hls (length_le_text ls) hgrounded (Nat.zero_add _), List.nil_append]

/-! ## Characters of lines -/

theorem mem_text {c : Char} {ls : List Line} (h : c ∈ text ls) :
    isWordChar c = true ∨ c = ' ' ∨ c = ':' ∨ c = '\n' := by
  induction ls with
  | nil => simp [text] at h
  | cons l ls ih =>
      simp only [text, List.mem_append, List.mem_cons] at h
      rcases h with h | h | rfl | h | rfl | h
      · exact .inr (.inl (List.eq_of_mem_replicate h))
      · exact .inl (l.key.all_word c h)
      · simp
      · cases hvalue : l.value with
        | none => simp [valueChars, hvalue] at h
        | some w =>
            simp only [valueChars, hvalue, Option.map_some, Option.getD_some,
              List.mem_cons] at h
            exact h.elim (fun h => .inr (.inl h)) fun h => .inl (w.all_word c h)
      · simp
      · exact ih h

end Line

theorem isPrintable_of_isWordChar {c : Char} (hc : isWordChar c = true) :
    isPrintable c = true := by
  have hrange : 0x20 ≤ c.toNat ∧ c.toNat ≤ 0x7E := by
    unfold isWordChar Char.isAlphanum Char.isAlpha Char.isUpper Char.isLower Char.isDigit at hc
    simp only [Bool.or_eq_true, Bool.and_eq_true, decide_eq_true_eq, ge_iff_le,
      UInt32.le_iff_toNat_le] at hc
    rcases hc with ((⟨hl, hu⟩ | ⟨hl, hu⟩) | ⟨hl, hu⟩) | rfl
    · exact ⟨Nat.le_trans (by decide) hl, Nat.le_trans hu (by decide)⟩
    · exact ⟨Nat.le_trans (by decide) hl, Nat.le_trans hu (by decide)⟩
    · exact ⟨Nat.le_trans (by decide) hl, Nat.le_trans hu (by decide)⟩
    · decide
  simp [isPrintable, hrange]

theorem unifyBreaks_eq_self {cs : List Char} (h : ∀ c ∈ cs, c ≠ '\r' ∧ c ≠ '\u0085') :
    unifyBreaks cs = cs := by
  fun_induction unifyBreaks cs with
  | case1 => rfl
  | case2 cs ih => exact absurd rfl (h '\r' (by simp)).1
  | case3 c cs hbreak ih =>
      obtain ⟨hc, hcs⟩ := List.forall_mem_cons.1 h
      simp [hc, ih hcs]

/-- A text of lines can be read as it stands. -/
theorem Line.readable_text (ls : List Line) :
    (text ls).all isPrintable = true ∧ unifyBreaks (text ls) = text ls := by
  constructor
  · rw [List.all_eq_true]
    intro c hc
    rcases mem_text hc with hc | rfl | rfl | rfl
    · exact isPrintable_of_isWordChar hc
    all_goals rfl
  · refine unifyBreaks_eq_self fun c hc => ?_
    rcases mem_text hc with hc | rfl | rfl | rfl
    · exact ⟨ne_of_isWordChar hc rfl, ne_of_isWordChar hc rfl⟩
    all_goals decide

end PointerChannels.Yaml
