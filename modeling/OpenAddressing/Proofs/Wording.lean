import Mathlib.Data.List.Forall2
import Mathlib.Tactic.IntervalCases
import OpenAddressing.Session.Basic

/-!
# The wording of events

Values are written on one line, and so are events: the line of an event has its mark at the
beginning and its only line break at the end. It is what comes of filling the template of the
event, unless there is a number of too many digits among the arguments.
-/

namespace OpenAddressing

/-! ## Numbers -/

theorem toString_nat_inj {m n : Nat} (h : toString m = toString n) : m = n := by
  have hdigits : m.repr.toList = n.repr.toList := congrArg String.toList h
  rw [Nat.toList_repr, Nat.toList_repr] at hdigits
  have hread := congrArg (fun digits => Nat.ofDigitChars 10 digits 0) hdigits
  simpa only [Nat.ofDigitChars_toDigits (by decide : 1 < 10) (Nat.le_refl 10)] using hread

theorem toString_int_inj {m n : Int} (h : toString m = toString n) : m = n := by
  have hsign (m n : Nat) : toString (Int.negSucc m) ≠ toString n := by
    intro heq
    have hminus : '-' ∈ ("-" ++ toString (m + 1)).toList := by simp
    rw [← toString_negSucc, heq] at hminus
    exact notMem_nat rfl n hminus
  cases m with
  | ofNat m =>
      cases n with
      | ofNat n => exact congrArg Int.ofNat (toString_nat_inj h)
      | negSucc n => exact absurd h.symm (hsign n m)
  | negSucc m =>
      cases n with
      | ofNat n => exact absurd h (hsign m n)
      | negSucc n =>
          have hnat := toString_nat_inj ((String.append_right_inj "-").mp h)
          exact congrArg Int.negSucc (Nat.succ.inj hnat)

/-! ## Values -/

namespace Text

private theorem newline_notMem_hexDigits (width n : Nat) : '\n' ∉ hexDigits width n := by
  induction width generalizing n with
  | zero => simp [hexDigits]
  | succ width ih =>
      have hdigit : ∀ m < 16, '\n' ≠ Nat.digitChar m := by decide
      simp [hexDigits, ih, hdigit _ (Nat.mod_lt n (by omega))]

private theorem newline_notMem_escapeCode (n : Nat) : '\n' ∉ escapeCode n := by
  unfold escapeCode
  split_ifs <;> simp [newline_notMem_hexDigits]

private theorem newline_notMem_escapeChar {quote : Char} (hquote : quote ≠ '\n') (c : Char) :
    '\n' ∉ escapeChar quote c := by
  unfold escapeChar
  split_ifs with hself hbreak
  · rcases hself with rfl | rfl
    · simp [hquote.symm]
    · decide
  · decide
  · decide
  · decide
  · simpa using Ne.symm hbreak
  · exact newline_notMem_escapeCode _

theorem oneLine_quoted (s : String) : OneLine (quoted s) := by
  have hquote : quoteFor s.toList ≠ '\n' := by
    unfold quoteFor
    split <;> decide
  rw [quoted, oneLine_ofList]
  simp [hquote.symm, newline_notMem_escapeChar hquote]

end Text

namespace Value

theorem oneLine_commas {texts : List String} (h : ∀ s ∈ texts, OneLine s) :
    OneLine (commas texts) := by
  rw [commas]
  induction texts with
  | nil => decide
  | cons s rest ih =>
      have hrest := ih fun t ht => h t (List.mem_cons_of_mem s ht)
      cases rest with
      | nil => simpa using h
      | cons t rest =>
          rw [String.intercalate_cons_cons, oneLine_append, oneLine_append]
          exact ⟨⟨h s List.mem_cons_self, by decide⟩, hrest⟩

mutual

theorem oneLine_render : ∀ v : Value, OneLine v.render
  | .null => by decide
  | .bool true => by decide
  | .bool false => by decide
  | .int n => oneLine_int n
  | .float text _ => text.property
  | .nan _ => show OneLine "nan" by decide
  | .str s => Text.oneLine_quoted s
  | .list items => by
      rw [render, oneLine_append, oneLine_append]
      exact ⟨⟨by decide, oneLine_commas (oneLine_renderItems items)⟩, by decide⟩
  | .tuple [] => by decide
  | .tuple [item] => by
      rw [render, oneLine_append, oneLine_append]
      exact ⟨⟨by decide, oneLine_render item⟩, by decide⟩
  | .tuple (x :: y :: items) => by
      rw [render, oneLine_append, oneLine_append]
      · exact ⟨⟨by decide, oneLine_commas (oneLine_renderItems (x :: y :: items))⟩, by decide⟩
      · simp
  | .dict entries => by
      rw [render, oneLine_append, oneLine_append]
      exact ⟨⟨by decide, oneLine_commas (oneLine_renderEntries entries)⟩, by decide⟩

theorem oneLine_renderItems : ∀ items : List Value, ∀ s ∈ renderItems items, OneLine s
  | [] => by simp [renderItems]
  | x :: xs => by
      simp only [renderItems, List.forall_mem_cons]
      exact ⟨oneLine_render x, oneLine_renderItems xs⟩

theorem oneLine_renderEntries :
    ∀ entries : List (Value × Value), ∀ s ∈ renderEntries entries, OneLine s
  | [] => by simp [renderEntries]
  | (k, v) :: xs => by
      simp only [renderEntries, List.forall_mem_cons, oneLine_append]
      exact ⟨⟨⟨oneLine_render k, by decide⟩, oneLine_render v⟩, oneLine_renderEntries xs⟩

end

end Value

/-! ## Lines -/

namespace Event

def words : Event Value → List String
  | .probeLimit key capacity =>
      ["probe limit hit for ", key.render, ", growing from ", toString capacity]
  | .collapsed tombstones => ["collapsed ", toString tombstones, " tombstones"]
  | .renewed before after => ["rehash ", toString before, " -> ", toString after, " (empty)"]
  | .rehashed before after live maxProbe =>
      ["rehash ", toString before, " -> ", toString after, " (", toString live,
        " live, max probe ", toString maxProbe, ")"]

def line (event : Event Value) : String := traceLine (String.join event.words)

end Event

/-! ## Templates -/

namespace Text

inductive Passage where
  | literal (s : String)
  | shown (i : Fin 10)
  | integer (i : Fin 10)

def Passage.spelled : Passage → String
  | .literal s => s
  | .shown i => String.ofList [opening, Nat.digitChar i, '!', 'r', closing]
  | .integer i => String.ofList [opening, Nat.digitChar i, ':', 'd', closing]

def isPlain (c : Char) : Bool := c ≠ opening ∧ c ≠ closing

inductive Passage.Writes (arguments : Array Value) : Passage → String → Prop where
  | literal {s : String} (hs : s.toList.all isPlain = true) : Writes arguments (.literal s) s
  | shown {i : Fin 10} {v : Value} (hv : arguments[i.val]? = some v) (hw : v.isWritable = true) :
      Writes arguments (.shown i) v.render
  | integer {i : Fin 10} {n : Int} (hn : arguments[i.val]? = some (.int n))
      (hw : (Value.int n).isWritable = true) : Writes arguments (.integer i) (toString n)

variable {arguments : Array Value} {numbering : Numbering}
  {layout : Numbering → List Char → Except Refusal (String × Numbering)}

private theorem findArgument_digit {i : Fin 10} {v : Value}
    (hnumbering : numbering = some 0 ∨ numbering = none) (hv : arguments[i.val]? = some v) :
    findArgument arguments numbering [Nat.digitChar i] = .ok (v, none) := by
  have hdigit : ∀ i : Fin 10, digit? (Nat.digitChar i) = some i.val := by decide
  have hselector : ∀ i : Fin 10, beginsSelector (Nat.digitChar i) = false := by decide
  have hbound : ¬wordBound ≤ i.val := by simp only [wordBound]; omega
  have href : readReference [Nat.digitChar i] = .ok (.number i) := by
    simp [readReference, takeDecimal, isDigit, hdigit, readDecimal, hbound]
  have hnumber : numberReference numbering (.number i) = .ok (.number i, none) := by
    rcases hnumbering with rfl | rfl <;> rfl
  have hname : (readReference [Nat.digitChar i] >>= numberReference numbering).mapError
      Refusal.template = .ok (.number i, none) := by
    rw [href]
    exact congrArg (Except.mapError Refusal.template) hnumber
  have htake : [Nat.digitChar i].takeWhile (fun c => !beginsSelector c) = [Nat.digitChar i] := by
    simp [hselector]
  have hdrop : [Nat.digitChar i].dropWhile (fun c => !beginsSelector c) = [] := by
    simp [hselector]
  rw [findArgument]
  dsimp only
  rw [htake, hdrop, hname]
  simp only [bind, Except.bind]
  rw [hv]
  rfl

private theorem ofList_toDigits (n : Nat) : String.ofList (Nat.toDigits 10 n) = toString n := by
  rw [← String.toList_inj, String.toList_ofList]
  exact Nat.toList_repr.symm

private theorem ofInt_decimal (n : Int) :
    ({ letter := some 'd' } : Field).ofInt n = toString n := by
  have hdigits : Nat.toDigits 10 n.natAbs ≠ [] := Nat.toDigits_ne_nil
  have hset : ({ letter := some 'd' } : Field).ofInt n =
      String.ofList ((if n < 0 then ['-'] else []) ++ Nat.toDigits 10 n.natAbs) := by
    simp [Field.ofInt, Field.base, Field.baseMark, Field.ofNumber, Field.signText, Field.grouped,
      Field.filling, hdigits, List.leftpad]
  rw [hset]
  cases n with
  | ofNat n => exact ofList_toDigits n
  | negSucc n =>
      rw [if_pos (Int.negSucc_lt_zero n), String.ofList_append]
      exact congrArg ("-" ++ ·) (ofList_toDigits (n + 1))

private theorem inLayout_decimal {n : Int} (h : (Value.int n).isWritable = true) :
    (Value.int n).inLayout ['d'] = .ok (toString n) := by
  have hread : Field.read ['d'] = .ok { letter := some 'd' } := rfl
  rw [Value.inLayout]
  simp [hread, Value.hasFields, Except.mapError, Field.checkSeparator, Value.inField,
    Value.numberInField, Value.integerLetters, Value.integerInField, Value.demand, h,
    Value.demandRoom, Value.widthBound, bind, Except.bind, ofInt_decimal]

private theorem fillFrom_literals (written : String) (cs rest : List Char)
    (hcs : cs.all isPlain = true) :
    fillFrom arguments layout numbering written (piecesFrom .text (cs ++ rest)) =
      fillFrom arguments layout numbering (written ++ String.ofList cs)
        (piecesFrom .text rest) := by
  induction cs generalizing written with
  | nil => simp
  | cons c cs ih =>
      rw [List.all_cons, Bool.and_eq_true] at hcs
      obtain ⟨hopen, hclose⟩ := of_decide_eq_true hcs.1
      have hpiece : piecesFrom .text (c :: (cs ++ rest)) =
          .literal c :: piecesFrom .text (cs ++ rest) := by
        rw [piecesFrom.eq_def]
        dsimp only
        rw [if_neg hopen, if_neg hclose]
      rw [List.cons_append, hpiece, fillFrom, ih _ hcs.2]
      congr 1
      rw [← String.toList_inj]
      simp

private theorem digitChar_notMem : ∀ i : Fin 10,
    Nat.digitChar i ∉ [opening, closing, '!', ':', '['] := by decide

private theorem piecesFrom_shown (i : Fin 10) (rest : List Char) :
    piecesFrom .text
        ((String.ofList [opening, Nat.digitChar i, '!', 'r', closing]).toList ++ rest) =
      .argument [Nat.digitChar i] (some 'r') [] :: piecesFrom .text rest := by
  have hdigit := digitChar_notMem i
  simp only [opening, closing, List.mem_cons, List.not_mem_nil, not_or, or_false] at hdigit
  simp [piecesFrom, opening, closing, hdigit]

private theorem piecesFrom_integer (i : Fin 10) (rest : List Char) :
    piecesFrom .text
        ((String.ofList [opening, Nat.digitChar i, ':', 'd', closing]).toList ++ rest) =
      .argument [Nat.digitChar i] none ['d'] :: piecesFrom .text rest := by
  have hdigit := digitChar_notMem i
  simp only [opening, closing, List.mem_cons, List.not_mem_nil, not_or, or_false] at hdigit
  simp [piecesFrom, opening, closing, hdigit]

/-- A template is filled passage by passage. -/
theorem fillFrom_passages {passages : List Passage} {texts : List String}
    (h : List.Forall₂ (Passage.Writes arguments) passages texts)
    (hnumbering : numbering = some 0 ∨ numbering = none) (written : String) :
    (fillFrom arguments layout numbering written
        (piecesFrom .text (String.join (passages.map Passage.spelled)).toList)).map Prod.fst =
      .ok (written ++ String.join texts) := by
  induction h generalizing numbering written with
  | nil =>
      simp [piecesFrom, Place.remains, fillFrom, Except.map]
  | @cons passage text passages texts hpassage _ ih =>
      rw [List.map_cons, String.join_cons, String.toList_append, String.join_cons,
        ← String.append_assoc]
      cases hpassage with
      | literal hs =>
          rw [Passage.spelled, fillFrom_literals _ _ _ hs, String.ofList_toList]
          exact ih hnumbering _
      | @shown i v hv hw =>
          have hshown : v.converted (some 'r') = .ok (.str v.render) := by
            simp [Value.converted, Value.written, hw, bind, Except.bind, pure, Except.pure]
          rw [Passage.spelled, piecesFrom_shown, fillFrom, findArgument_digit hnumbering hv]
          simp only [bind, Except.bind, hshown]
          exact ih (Or.inr rfl) _
      | @integer i n hn hw =>
          rw [Passage.spelled, piecesFrom_integer, fillFrom, findArgument_digit hnumbering hn]
          simp only [bind, Except.bind, Value.converted, inLayout_decimal hw]
          exact ih (Or.inr rfl) _

theorem fill_passages {passages : List Passage} {texts : List String} {template : String}
    (htemplate : template = String.join (passages.map Passage.spelled))
    (h : List.Forall₂ (Passage.Writes arguments) passages texts) :
    fill template arguments = .ok (String.join texts) := by
  rw [fill, fillNested, pieces, htemplate]
  exact (fillFrom_passages h (Or.inl rfl) "").trans (by rw [String.empty_append])

/-- Of what is shown, nothing is written that has too many digits, and then nothing at all. -/
theorem fill_shown_of_not_isWritable (front back : String) (i : Fin 10) {v : Value}
    {template : String} (htemplate : template = front ++ (Passage.shown i).spelled ++ back)
    (hfront : front.toList.all isPlain = true) (hv : arguments[i.val]? = some v)
    (hw : v.isWritable = false) : fill template arguments = .error .manyDigits := by
  have hshown : v.converted (some 'r') = .error .manyDigits := by
    simp [Value.converted, Value.written, hw, bind, Except.bind]
  rw [fill, fillNested, pieces, htemplate, String.toList_append, String.toList_append,
    List.append_assoc, fillFrom_literals _ _ _ hfront, Passage.spelled, piecesFrom_shown, fillFrom,
    findArgument_digit (Or.inl rfl) hv]
  simp only [bind, Except.bind, hshown]

theorem fill_traceLine {passages : List Passage} {texts : List String} {template : String}
    (htemplate : template = String.join (passages.map Passage.spelled))
    (h : List.Forall₂ (Passage.Writes arguments) passages texts) :
    fill (traceLine template) arguments = .ok (traceLine (String.join texts)) := by
  have hmarked : traceLine template =
      String.join ((.literal "[table] " :: (passages ++ [.literal "\n"])).map Passage.spelled) := by
    simp [traceLine, htemplate, Passage.spelled, String.append_assoc]
  have hwrites : List.Forall₂ (Passage.Writes arguments)
      (.literal "[table] " :: (passages ++ [.literal "\n"])) ("[table] " :: (texts ++ ["\n"])) :=
    .cons (.literal (by decide)) (List.rel_append h (.cons (.literal (by decide)) .nil))
  refine (fill_passages hmarked hwrites).trans ?_
  simp [traceLine, String.append_assoc]

end Text

namespace Event

/-- The line of an event is its template filled, if all that goes into it can be written. -/
theorem written_eq (event : Event Value) (h : ∀ v ∈ event.arguments, v.isWritable = true) :
    event.written = .ok event.line := by
  rw [written, line]
  open Text.Passage in
  cases event with
  | probeLimit key capacity =>
      simp only [arguments, List.forall_mem_cons] at h
      have hwrites : List.Forall₂ (Writes #[key, .int capacity])
          [literal "probe limit hit for ", shown 0, literal ", growing from ", integer 1]
          (probeLimit key capacity).words :=
        .cons (.literal (by decide)) <| .cons (.shown rfl h.1) <|
          .cons (.literal (by decide)) <| .cons (.integer rfl h.2.1) .nil
      rw [template, arguments]
      exact Text.fill_traceLine (by decide) hwrites
  | collapsed tombstones =>
      simp only [arguments, List.forall_mem_cons] at h
      have hwrites : List.Forall₂ (Writes #[.int tombstones])
          [literal "collapsed ", integer 0, literal " tombstones"]
          (collapsed tombstones : Event Value).words :=
        .cons (.literal (by decide)) <| .cons (.integer rfl h.1) <|
          .cons (.literal (by decide)) .nil
      rw [template, arguments]
      exact Text.fill_traceLine (by decide) hwrites
  | renewed before after =>
      simp only [arguments, List.forall_mem_cons] at h
      have hwrites : List.Forall₂ (Writes #[.int before, .int after])
          [literal "rehash ", integer 0, literal " -> ", integer 1, literal " (empty)"]
          (renewed before after : Event Value).words :=
        .cons (.literal (by decide)) <| .cons (.integer rfl h.1) <|
          .cons (.literal (by decide)) <| .cons (.integer rfl h.2.1) <|
          .cons (.literal (by decide)) .nil
      rw [template, arguments]
      exact Text.fill_traceLine (by decide) hwrites
  | rehashed before after live maxProbe =>
      simp only [arguments, List.forall_mem_cons] at h
      have hwrites : List.Forall₂ (Writes #[.int before, .int after, .int live, .int maxProbe])
          [literal "rehash ", integer 0, literal " -> ", integer 1, literal " (", integer 2,
            literal " live, max probe ", integer 3, literal ")"]
          (rehashed before after live maxProbe : Event Value).words :=
        .cons (.literal (by decide)) <| .cons (.integer rfl h.1) <|
          .cons (.literal (by decide)) <| .cons (.integer rfl h.2.1) <|
          .cons (.literal (by decide)) <| .cons (.integer rfl h.2.2.1) <|
          .cons (.literal (by decide)) <| .cons (.integer rfl h.2.2.2.1) <|
          .cons (.literal (by decide)) .nil
      rw [template, arguments]
      exact Text.fill_traceLine (by decide) hwrites

theorem written_of_not_isWritable {key : Value} (h : key.isWritable = false) (capacity : Nat) :
    (probeLimit key capacity).written = .error .manyDigits :=
  Text.fill_shown_of_not_isWritable "[table] probe limit hit for " ", growing from \x7b1:d\x7d\n" 0
    (by rw [template]; decide) (by decide) rfl h

end Event

end OpenAddressing
