import Mathlib
import RelQuery.Proofs.Sql.Layout
import RelQuery.Proofs.Sql.Lexeme

/-!
# Reading tokens back

The text of each token, read by the rules of the dialect, gives the lexemes of the token, once it is kept apart from
what comes after it. Quotations end where they should whatever is inside them.
-/

namespace RelQuery.Sql

/-- Whether a lexeme ends before a character, whichever lexeme it is. -/
def breaks (c : Char) : Bool := c = ' ' || c = '\n' || c = ',' || c = '(' || c = ')'

/-- Nothing follows, or a character that ends the lexeme before it. -/
def Broken (rest : List Char) : Prop := ∀ c ∈ rest.head?, breaks c = true

theorem broken_nil : Broken [] := nofun

theorem eq_of_breaks {c : Char} (h : breaks c = true) : c = ' ' ∨ c = '\n' ∨ c = ',' ∨ c = '(' ∨ c = ')' := by
  simpa [breaks, or_assoc] using h

/-- The lexeme that was begun may end here, and has to before a character that breaks. -/
structure Mode.Ends (d : Dialect) (mode : Mode) (lexemes : List Lexeme) : Prop where
  finish : mode.finish = some lexemes
  next? : ∀ c, breaks c = true → mode.next? d c = none

theorem Mode.finish_between : between.finish = some [] := rfl

theorem Mode.next?_between (d : Dialect) {c : Char} (h : breaks c = true) : between.next? d c = none := by
  rcases eq_of_breaks h with rfl | rfl | rfl | rfl | rfl <;> cases d <;> decide

/-- Every separator but the dot is read in the same way after all lexemes. -/
theorem Mode.separator?_eq {c : Char} (hc : c ≠ '.') (mode : Mode) : mode.separator? c = between.separator? c := by
  unfold separator?
  split <;> simp_all

theorem Mode.separator?_of_breaks {c : Char} (h : breaks c = true) :
    ∃ separator, ∀ mode : Mode, mode.separator? c = some (separator, between) := by
  have hdot : c ≠ '.' := by
    rintro rfl
    cases h
  have hbetween : ∃ separator, between.separator? c = some (separator, between) := by
    rcases eq_of_breaks h with rfl | rfl | rfl | rfl | rfl <;> exact ⟨_, rfl⟩
  obtain ⟨separator, hseparator⟩ := hbetween
  exact ⟨separator, fun mode => (separator?_eq hdot mode).trans hseparator⟩

theorem lexFrom_of_foldlM {d : Dialect} {mode mode' : Mode} {cs : List Char}
    (h : cs.foldlM (Mode.next? d) mode = some mode') (rest : List Char) :
    lexFrom d mode (cs ++ rest) = lexFrom d mode' rest := by
  induction cs generalizing mode with
  | nil =>
    cases h
    rfl
  | cons c cs ih =>
    rw [List.foldlM_cons] at h
    obtain ⟨next, hnext, hcs⟩ := Option.bind_eq_some_iff.mp h
    rw [List.cons_append, lexFrom, hnext]
    exact ih hcs

theorem lexFrom_of_ends {d : Dialect} {mode : Mode} {lexemes : List Lexeme} {rest : List Char}
    (h : mode.Ends d lexemes) (hrest : Broken rest) :
    lexFrom d mode rest = (lexFrom d .between rest).map (lexemes ++ ·) := by
  cases rest with
  | nil => simp only [lexFrom, h.finish, Mode.finish_between, Option.map_some, List.append_nil]
  | cons c rest =>
    have hc := hrest c rfl
    obtain ⟨separator, hseparator⟩ := Mode.separator?_of_breaks hc
    simp only [lexFrom, h.next? c hc, h.finish, Mode.next?_between d hc, Mode.finish_between, hseparator,
      Option.map_map, Function.comp_def, List.nil_append, List.append_assoc]

/-! ### Reading characters -/

/-- Characters that are read as some lexemes, given what comes after them. -/
def Reads (d : Dialect) (cs : List Char) (lexemes : List Lexeme) (rest : List Char) : Prop :=
  lexFrom d .between (cs ++ rest) = (lexFrom d .between rest).map (lexemes ++ ·)

section

variable {d : Dialect} {rest : List Char}

theorem Reads.append {a b : List Char} {l l' : List Lexeme} (ha : Reads d a l (b ++ rest)) (hb : Reads d b l' rest) :
    Reads d (a ++ b) (l ++ l') rest := by
  unfold Reads at *
  simp only [List.append_assoc, ha, hb, Option.map_map, Function.comp_def]

theorem reads_nil : Reads d [] [] rest := by
  simp [Reads]

theorem reads_of_foldlM {cs : List Char} {mode : Mode} {lexemes : List Lexeme}
    (h : cs.foldlM (Mode.next? d) .between = some mode) (hmode : mode.Ends d lexemes) (hrest : Broken rest) :
    Reads d cs lexemes rest := by
  rw [Reads, lexFrom_of_foldlM h, lexFrom_of_ends hmode hrest]

theorem reads_separator {c : Char} {separator : List Lexeme} (hc : breaks c = true)
    (h : Mode.between.separator? c = some (separator, .between)) : Reads d [c] separator rest := by
  simp [Reads, lexFrom, Mode.next?_between d hc, Mode.finish_between, h]

/-- What holds of each ASCII character, looked through one by one. -/
theorem forall_ascii {p : Char → Prop} (h : ∀ n < 128, p (Char.ofNat n)) {c : Char} (hc : c.toNat < 128) : p c := by
  have := h c.toNat hc
  rwa [Char.ofNat_toNat] at this

/-- A lexeme takes up the characters that belong to it, one after the other. -/
theorem foldlM_next? (m : List Char → Mode) {p : Char → Bool}
    (h : ∀ read c, p c = true → (m read).next? d c = some (m (read ++ [c]))) {cs : List Char} (hcs : cs.all p = true)
    (read : List Char) : cs.foldlM (Mode.next? d) (m read) = some (m (read ++ cs)) := by
  induction cs generalizing read with
  | nil => simp
  | cons c cs ih =>
    rw [List.all_cons, Bool.and_eq_true] at hcs
    simp [List.foldlM_cons, h read c hcs.1, ih hcs.2]

theorem foldlM_word {cs : List Char} (h : cs.all Char.isAlpha = true) (read : List Char) :
    cs.foldlM (Mode.next? d) (.word read) = some (.word (read ++ cs)) :=
  foldlM_next? .word (fun _ _ hc => by simp [Mode.next?, Char.isAlphanum, hc]) h read

theorem reads_word {cs : List Char} (hne : cs ≠ []) (h : cs.all Char.isAlpha = true) (hrest : Broken rest) :
    Reads d cs [.word (String.ofList cs)] rest := by
  obtain ⟨c, cs, rfl⟩ := List.exists_cons_of_ne_nil hne
  rw [List.all_cons, Bool.and_eq_true] at h
  have hrun : (c :: cs).foldlM (Mode.next? d) .between = some (.word (c :: cs)) := by
    rw [List.foldlM_cons, Mode.next?, Mode.opened?, if_pos h.1]
    exact foldlM_word h.2 [c]
  refine reads_of_foldlM hrun ⟨rfl, fun c hc => ?_⟩ hrest
  rcases eq_of_breaks hc with rfl | rfl | rfl | rfl | rfl <;> rfl

theorem toNat_lt_of_isDigit {c : Char} (h : c.isDigit = true) : c.toNat < 128 :=
  Nat.lt_of_le_of_lt (Char.isDigit_iff_toNat.mp h).2 (by decide)

theorem isAlpha_of_isDigit {c : Char} (h : c.isDigit = true) : c.isAlpha = false :=
  forall_ascii (p := fun c => c.isDigit = true → c.isAlpha = false) (by decide) (toNat_lt_of_isDigit h) h

theorem all_isDigit_repr (n : Nat) : n.repr.toList.all Char.isDigit = true := by
  rw [Nat.repr_eq_ofList_toDigits, String.toList_ofList, List.all_eq_true]
  exact fun c hc => Nat.isDigit_of_mem_toDigits (by decide) (by decide) hc

theorem toList_repr_ne_nil (n : Nat) : n.repr.toList ≠ [] := by
  rw [Nat.repr_eq_ofList_toDigits, String.toList_ofList]
  exact Nat.toDigits_ne_nil

theorem foldlM_number {cs : List Char} (h : cs.all Char.isDigit = true) (read : List Char) :
    cs.foldlM (Mode.next? d) (.number read) = some (.number (read ++ cs)) :=
  foldlM_next? .number (fun _ _ hc => by simp [Mode.next?, hc]) h read

theorem foldlM_numbered {cs : List Char} (h : cs.all Char.isDigit = true) (read : List Char) :
    cs.foldlM (Mode.next? d) (.numbered read) = some (.numbered (read ++ cs)) :=
  foldlM_next? .numbered (fun _ _ hc => by simp [Mode.next?, hc]) h read

theorem foldlM_repr (n : Int) :
    n.repr.toList.foldlM (Mode.next? d) .between = some (.number n.repr.toList) := by
  rw [Int.repr_eq_if]
  split
  · obtain ⟨c, cs, hcs⟩ := List.exists_cons_of_ne_nil (toList_repr_ne_nil n.toNat)
    have hdigits := all_isDigit_repr n.toNat
    rw [hcs, List.all_cons, Bool.and_eq_true] at hdigits
    rw [hcs, List.foldlM_cons, Mode.next?, Mode.opened?, isAlpha_of_isDigit hdigits.1, hdigits.1]
    exact foldlM_number hdigits.2 [c]
  · rw [String.toList_append]
    exact foldlM_number (all_isDigit_repr _) ['-']

theorem reads_int (n : Int) (hrest : Broken rest) : Reads d (toString n).toList [.int n] rest := by
  refine reads_of_foldlM (foldlM_repr n) ⟨?_, fun c hc => ?_⟩ hrest
  · rw [Mode.finish, String.ofList_toList, Int.toInt?_repr, Option.map_some]
  · rcases eq_of_breaks hc with rfl | rfl | rfl | rfl | rfl <;> rfl

theorem reads_anonymous (h : Mode.opened? d '?' = some .anonymous) (hrest : Broken rest) :
    Reads d ['?'] [.placeholder none] rest := by
  have hread : ['?'].foldlM (Mode.next? d) .between = some .anonymous := by
    rw [List.foldlM_cons, Mode.next?, h]
    rfl
  exact reads_of_foldlM hread ⟨rfl, fun _ _ => rfl⟩ hrest

theorem reads_numbered (h : Mode.opened? d '$' = some (.numbered [])) (index : Nat) (hrest : Broken rest) :
    Reads d ('$' :: index.repr.toList) [.placeholder (some index)] rest := by
  have hread : ('$' :: index.repr.toList).foldlM (Mode.next? d) .between = some (.numbered index.repr.toList) := by
    rw [List.foldlM_cons, Mode.next?, h]
    exact foldlM_numbered (all_isDigit_repr index) []
  refine reads_of_foldlM hread ⟨?_, fun c hc => ?_⟩ hrest
  · rw [Mode.finish, String.ofList_toList, Nat.toNat?_repr, Option.map_some]
  · rcases eq_of_breaks hc with rfl | rfl | rfl | rfl | rfl <;> rfl

theorem reads_placeholder (d : Dialect) (index : Nat) (hrest : Broken rest) :
    Reads d (d.placeholder index).toList [d.placeholderLexeme index] rest := by
  have hanonymous : "?".toList = ['?'] := by decide
  have hnumbered : ("$" ++ index.repr).toList = '$' :: index.repr.toList := by
    rw [String.toList_append]
    rfl
  cases d with
  | sqlite | mysql => exact hanonymous ▸ reads_anonymous rfl hrest
  | postgres | duckdb => exact hnumbered ▸ reads_numbered rfl index hrest

/-- Whether a character is doubled inside a quotation. -/
def Quotation.doubles (quotation : Quotation) (d : Dialect) (c : Char) : Bool :=
  c = quotation.mark d || (c = '\\' && quotation.escapes d)

/-- A text in quotation marks. -/
def Quotation.quote (quotation : Quotation) (d : Dialect) (s : String) : List Char :=
  quotation.mark d :: Dialect.doubled (quotation.doubles d) s.toList ++ [quotation.mark d]

theorem toList_quoteIdent (d : Dialect) (s : String) : (d.quoteIdent s).toList = Quotation.name.quote d s := by
  have hmark : Quotation.name.mark d = d.identQuote := by cases d <;> rfl
  have hdoubles : Quotation.name.doubles d = fun c => decide (c = d.identQuote) := by
    funext c
    have hescapes : Quotation.name.escapes d = false := by cases d <;> rfl
    rw [Quotation.doubles, hmark, hescapes, Bool.and_false, Bool.or_false]
  rw [Dialect.quoteIdent, String.toList_ofList, Quotation.quote, hmark, hdoubles]

theorem toList_quoteText (d : Dialect) (s : String) : (d.quoteText s).toList = Quotation.text.quote d s := by
  have hdoubles : Quotation.text.doubles d = d.doublesInText := by
    funext c
    rw [Bool.eq_iff_iff]
    cases d <;> simp [Quotation.doubles, Quotation.escapes, Dialect.doublesInText] <;> exact Iff.rfl
  rw [Dialect.quoteText, String.toList_ofList, Quotation.quote, hdoubles, Quotation.mark]

theorem opened?_mark (quotation : Quotation) (d : Dialect) :
    Mode.opened? d (quotation.mark d) = some (.quoted quotation []) := by
  cases quotation <;> cases d <;> rfl

/-- A character inside a quotation, doubled if it has to be, is read as itself. -/
theorem foldlM_doubles (quotation : Quotation) (c : Char) (read : List Char) :
    (if quotation.doubles d c then [c, c] else [c]).foldlM (Mode.next? d) (.quoted quotation read)
      = some (.quoted quotation (read ++ [c])) := by
  by_cases hmark : c = quotation.mark d
  · -- the first mark closes the quotation, and the second one opens it again
    simp [Quotation.doubles, hmark, Mode.next?]
  · by_cases hescape : c = '\\' ∧ quotation.escapes d = true
    · obtain ⟨rfl, hescapes⟩ := hescape
      simp [Quotation.doubles, hmark, hescapes, Mode.next?, Dialect.unescaped]
    · simp [Quotation.doubles, hmark, hescape, Mode.next?]

theorem foldlM_doubled (quotation : Quotation) (cs : List Char) (read : List Char) :
    (Dialect.doubled (quotation.doubles d) cs).foldlM (Mode.next? d) (.quoted quotation read)
      = some (.quoted quotation (read ++ cs)) := by
  induction cs generalizing read with
  | nil => simp [Dialect.doubled]
  | cons c cs ih =>
    rw [Dialect.doubled] at ih ⊢
    have hrest := ih (read ++ [c])
    rw [List.append_assoc] at hrest
    rw [List.flatMap_cons, List.foldlM_append, foldlM_doubles]
    exact hrest

theorem foldlM_quote (quotation : Quotation) (s : String) :
    (quotation.quote d s).foldlM (Mode.next? d) .between = some (.closed quotation s.toList) := by
  rw [Quotation.quote, List.cons_append, List.foldlM_cons, Mode.next?, opened?_mark]
  change (Dialect.doubled _ _ ++ _).foldlM _ _ = _
  rw [List.foldlM_append, foldlM_doubled]
  simp [Mode.next?]

theorem ends_closed (quotation : Quotation) (s : String) :
    (Mode.closed quotation s.toList).Ends d [quotation.lexeme s] where
  finish := by rw [Mode.finish, String.ofList_toList]
  next? c hc := by
    rcases eq_of_breaks hc with rfl | rfl | rfl | rfl | rfl <;> cases quotation <;> cases d <;> rfl

theorem reads_quote (quotation : Quotation) (s : String) (hrest : Broken rest) :
    Reads d (quotation.quote d s) [quotation.lexeme s] rest :=
  reads_of_foldlM (foldlM_quote quotation s) (ends_closed quotation s) hrest

/-- A qualified name is read as its two names with a dot between them. -/
theorem reads_qualified (table name : String) (hrest : Broken rest) :
    Reads d (Quotation.name.quote d table ++ '.' :: Quotation.name.quote d name) [.name table, .symbol ".", .name name]
      rest := by
  have hdot (rest : List Char) : lexFrom d (.closed .name table.toList) ('.' :: rest)
      = (lexFrom d .qualifying rest).map ([.name table, .symbol "."] ++ ·) := by
    have hnext : (Mode.closed .name table.toList).next? d '.' = none := by cases d <;> rfl
    rw [lexFrom, hnext, (ends_closed (d := d) .name table).finish]
    rfl
  have hname : lexFrom d .qualifying (Quotation.name.quote d name ++ rest)
      = lexFrom d .between (Quotation.name.quote d name ++ rest) := by
    simp only [Quotation.quote, List.cons_append, lexFrom, Mode.next?, opened?_mark, if_true]
  have hread := reads_quote (d := d) .name name hrest
  rw [Reads] at hread ⊢
  rw [List.append_assoc, lexFrom_of_foldlM (foldlM_quote .name table), List.cons_append, hdot, hname, hread,
    Option.map_map]
  rfl

end

/-! ### Reading tokens -/

section

variable {d : Dialect} {rest : List Char}

theorem reads_boolText (b : Bool) (hrest : Broken rest) : Reads d (d.boolText b).toList [d.boolLexeme b] rest := by
  have hzero : Reads d "0".toList [.int 0] rest := by
    have h : toString (0 : Int) = "0" := by decide
    exact h ▸ reads_int 0 hrest
  have hone : Reads d "1".toList [.int 1] rest := by
    have h : toString (1 : Int) = "1" := by decide
    exact h ▸ reads_int 1 hrest
  have hfalse : Reads d "false".toList [.word "false"] rest := reads_word (by decide) (by decide) hrest
  have htrue : Reads d "true".toList [.word "true"] rest := reads_word (by decide) (by decide) hrest
  cases d with
  | sqlite | mysql => cases b <;> assumption
  | postgres | duckdb => cases b <;> assumption

theorem reads_words {ws : List String} (hne : ws ≠ [])
    (hws : ∀ w ∈ ws, w.toList ≠ [] ∧ w.toList.all Char.isAlpha = true) (hrest : Broken rest) :
    Reads d (" ".intercalate ws).toList (ws.map .word) rest := by
  have hone {w : String} {rest : List Char} (hw : w.toList ≠ [] ∧ w.toList.all Char.isAlpha = true)
      (hrest : Broken rest) : Reads d w.toList [.word w] rest := by
    have := reads_word (d := d) hw.1 hw.2 hrest
    rwa [String.ofList_toList] at this
  induction ws with
  | nil => exact absurd rfl hne
  | cons w ws ih =>
    have hw := hws w List.mem_cons_self
    cases ws with
    | nil =>
      rw [String.intercalate_singleton]
      exact hone hw hrest
    | cons w' ws =>
      have hmore := ih (List.cons_ne_nil w' ws) fun w hw => hws w (List.mem_cons_of_mem _ hw)
      have hblank : Reads d " ".toList [] ((" ".intercalate (w' :: ws)).toList ++ rest) := reads_separator rfl rfl
      rw [String.intercalate_cons_cons, String.toList_append, String.toList_append, List.append_assoc]
      exact (hone hw (fun c hc => by cases hc; rfl)).append (hblank.append hmore)

theorem Token.words_alpha (t : Token) : ∀ w ∈ t.words, w.toList ≠ [] ∧ w.toList.all Char.isAlpha = true := by
  cases t <;> first | decide | exact nofun

theorem Token.text_of_words {t : Token} (h : t.words ≠ []) (d : Dialect) (index : Nat) :
    t.text d index = " ".intercalate t.words := by
  cases t <;> simp only [text, words, ne_eq, not_true_eq_false] at h ⊢ <;> decide

theorem Token.reads_keyword {t : Token} (h : t.words ≠ []) (index : Nat) (hrest : Broken rest) :
    Reads d (t.text d index).toList (t.words.map .word) rest :=
  t.text_of_words h d index ▸ reads_words h t.words_alpha hrest

theorem upper_of_isAlpha {c : Char} (h : c.isAlpha = true) :
    Text.mapChar Text.upperRuns Text.upperExpansions c ≠ [] ∧
      (Text.mapChar Text.upperRuns Text.upperExpansions c).all Char.isAlpha = true := by
  have hascii : c.toNat < 128 := by
    simp only [Char.isAlpha, Char.isUpper, Char.isLower, Bool.or_eq_true, Bool.and_eq_true, decide_eq_true_eq,
      UInt32.le_iff_toNat_le] at h
    change _ ∧ c.toNat ≤ 90 ∨ _ ∧ c.toNat ≤ 122 at h
    omega
  exact forall_ascii (p := fun c => c.isAlpha = true → Text.mapChar Text.upperRuns Text.upperExpansions c ≠ [] ∧
    (Text.mapChar Text.upperRuns Text.upperExpansions c).all Char.isAlpha = true) (by decide +kernel) hascii h

theorem Token.reads_function {name : String} (h : name.toList.all Char.isAlpha = true) (index : Nat)
    (hrest : Broken rest) :
    Reads d ((function name).text d index).toList ((function name).lexemes d index) rest := by
  have htext : ((function name).text d index).toList
      = name.toList.flatMap (Text.mapChar Text.upperRuns Text.upperExpansions) := String.toList_ofList
  rw [lexemes]
  split
  case isTrue hempty =>
    subst hempty
    exact reads_nil
  case isFalse hempty =>
    obtain ⟨c, cs, hcs⟩ := List.exists_cons_of_ne_nil fun h => hempty (String.toList_eq_nil_iff.mp h)
    rw [List.all_eq_true] at h
    have hne : ((function name).text d index).toList ≠ [] := by
      have := (upper_of_isAlpha (h c (hcs ▸ List.mem_cons_self))).1
      simp [htext, hcs, this]
    have hall : ((function name).text d index).toList.all Char.isAlpha = true := by
      rw [htext, List.all_flatMap, List.all_eq_true]
      exact fun c hc => (upper_of_isAlpha (h c hc)).2
    have hword := reads_word (d := d) hne hall hrest
    rwa [String.ofList_toList] at hword

theorem reads_comparison {s : String} (hs : s ∈ Dialect.comparisons) (hrest : Broken rest) :
    Reads d s.toList [.symbol s] rest := by
  have hrun : s.toList.foldlM (Mode.next? d) .between = some (.comparison s.toList) := by
    simp only [Dialect.comparisons, List.mem_cons, List.not_mem_nil, or_false] at hs
    rcases hs with rfl | rfl | rfl | rfl | rfl | rfl <;> rfl
  refine reads_of_foldlM hrun ⟨?_, fun c hc => ?_⟩ hrest
  · rw [Mode.finish, String.ofList_toList, if_pos hs]
  · rcases eq_of_breaks hc with rfl | rfl | rfl | rfl | rfl <;> rfl

theorem Token.reads_whole {t : Token} (ht : t.isWhole = true) (hletters : t.isLettered = true) (index : Nat)
    (hrest : Broken rest) :
    Reads d (t.text d index).toList (t.lexemes d index) rest := by
  cases t with
  | ident name => exact toList_quoteIdent d name ▸ reads_quote .name name hrest
  | litText s => exact toList_quoteText d s ▸ reads_quote .text s hrest
  | litInt n => exact reads_int n.toInt hrest
  | litBool b => exact reads_boolText b hrest
  | true_ => exact reads_boolText true hrest
  | false_ => exact reads_boolText false hrest
  | param _ => exact reads_placeholder d index hrest
  | function name => exact reads_function hletters index hrest
  | eq | ne | lt | gt | lte | gte => exact reads_comparison (by rw [text]; decide) hrest
  | space | newline | comma | indent | lparen | rparen | dot => cases ht
  | _ => exact reads_keyword (by decide) index hrest

theorem Token.reads_separator {t : Token} {index : Nat} {c : Char} (htext : (t.text d index).toList = [c])
    (hc : breaks c = true) (h : Mode.between.separator? c = some (t.lexemes d index, .between)) :
    Reads d (t.text d index).toList (t.lexemes d index) rest :=
  htext ▸ Sql.reads_separator hc h

theorem Token.reads_lparen (index : Nat) : Reads d (lparen.text d index).toList (lparen.lexemes d index) rest :=
  reads_separator (c := '(') (by rw [text]; decide) rfl rfl

theorem Token.reads_rparen (index : Nat) : Reads d (rparen.text d index).toList (rparen.lexemes d index) rest :=
  reads_separator (c := ')') (by rw [text]; decide) rfl rfl

theorem Token.reads_gap {t : Token} (ht : t.isGap = true) (index : Nat) :
    Reads d (t.text d index).toList (t.lexemes d index) rest := by
  cases t with
  | space => exact reads_separator (c := ' ') (by rw [text]; decide) rfl rfl
  | newline => exact reads_separator (c := '\n') (by rw [text]; decide) rfl rfl
  | comma => exact reads_separator (c := ',') (by rw [text]; decide) rfl rfl
  | indent depth =>
    rw [text, String.toList_ofList]
    induction 2 * depth with
    | zero => exact reads_nil
    | succ n ih =>
      have hblank : Reads d [' '] [] (List.replicate n ' ' ++ rest) := Sql.reads_separator rfl rfl
      exact hblank.append ih
  | _ => cases ht

/-- The text of a token that keeps others apart starts with a character that breaks lexemes. -/
theorem Token.broken_text {t : Token} (ht : t.separates = true) (d : Dialect) (index : Nat) (rest : List Char) :
    Broken ((t.text d index).toList ++ rest) := by
  have hbroken {c : Char} {cs : List Char} (hc : breaks c = true) (h : (t.text d index).toList = c :: cs) :
      Broken ((t.text d index).toList ++ rest) := by
    intro c' hc'
    rw [h, List.cons_append, List.head?_cons, Option.mem_some_iff] at hc'
    exact hc' ▸ hc
  cases t with
  | space | newline | comma | lparen | rparen => exact hbroken rfl (by rw [text]; rfl)
  | indent depth =>
    cases depth with
    | zero => cases ht
    | succ n => exact hbroken (c := ' ') rfl (by rw [text, String.toList_ofList, Nat.mul_succ, List.replicate_succ])
  | _ => cases ht

end

end RelQuery.Sql
