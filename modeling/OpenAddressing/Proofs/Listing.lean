import OpenAddressing.Proofs.Act
import OpenAddressing.Proofs.Census
import OpenAddressing.Proofs.Encoding

/-!
# Listings

The listing of a table has two lines for the whole of it and then one line for each slot. No line
has a break in it, so a listing can be taken apart into its lines, and the counters and the tags of
the table can be read off them. Whatever the rules were, all slots of a table that requests lead
to have a name, so a listing ends early only where an entry has a number of too many digits.
-/

namespace OpenAddressing

variable {κ ν ε : Type}

/-! ## Lines -/

def printed (lines : List String) : String := String.join (lines.map (· ++ "\n"))

@[simp]
theorem printed_nil : printed [] = "" := rfl

@[simp]
theorem printed_cons (line : String) (lines : List String) :
    printed (line :: lines) = line ++ ("\n" ++ printed lines) := by
  rw [printed, List.map_cons, String.join_cons, String.append_assoc]
  rfl

/-- Texts are equal piece by piece if both first pieces end where a character first occurs. -/
theorem pieces_eq {c : Char} {s s' r r' : String} (hs : c ∉ s.toList) (hs' : c ∉ s'.toList)
    (hr : r.toList.head? = some c) (hr' : r'.toList.head? = some c) (h : s ++ r = s' ++ r') :
    s = s' ∧ r = r' := by
  have hfirst (t u : String) (ht : c ∉ t.toList) (hu : u.toList.head? = some c) :
      (t ++ u).toList.takeWhile (· ≠ c) = t.toList := by
    obtain ⟨rest, hrest⟩ := List.head?_eq_some_iff.mp hu
    have hplain : ∀ a ∈ t.toList, decide (a ≠ c) = true := fun a ha =>
      decide_eq_true fun heq => ht (heq ▸ ha)
    rw [String.toList_append, List.takeWhile_append_of_pos hplain, hrest]
    simp
  have heq : s = s' := by
    rw [← String.toList_inj, ← hfirst s r hs hr, h, hfirst s' r' hs' hr']
  subst heq
  exact ⟨rfl, (String.append_right_inj s).mp h⟩

theorem printed_append (lines lines' : List String) :
    printed (lines ++ lines') = printed lines ++ printed lines' := by
  rw [printed, List.map_append, String.join_append]
  rfl

/-- Lines without breaks can be read back, and what comes after the last break as well. -/
theorem printed_append_inj {lines lines' : List String} {rest rest' : String}
    (h : ∀ line ∈ lines, OneLine line) (h' : ∀ line ∈ lines', OneLine line) (hrest : OneLine rest)
    (hrest' : OneLine rest') (heq : printed lines ++ rest = printed lines' ++ rest') :
    lines = lines' ∧ rest = rest' := by
  have hbreak (text : String) : ("\n" ++ text).toList.head? = some '\n' := by simp
  have hne {text : String} (htext : OneLine text) (line : String) (lines : List String)
      (after : String) : text ≠ printed (line :: lines) ++ after := by
    rintro rfl
    simp [OneLine] at htext
  induction lines generalizing lines' with
  | nil =>
      rw [printed_nil, String.empty_append] at heq
      cases lines' with
      | nil => exact ⟨rfl, heq.trans (String.empty_append)⟩
      | cons line' lines' => exact absurd heq (hne hrest _ _ _)
  | cons line lines ih =>
      cases lines' with
      | nil =>
          rw [printed_nil, String.empty_append] at heq
          exact absurd heq.symm (hne hrest' _ _ _)
      | cons line' lines' =>
          rw [List.forall_mem_cons] at h h'
          simp only [printed_cons, String.append_assoc] at heq
          obtain ⟨rfl, hafter⟩ := pieces_eq h.1 h'.1 (hbreak _) (hbreak _) heq
          obtain ⟨rfl, hend⟩ := ih h.2 h'.2 ((String.append_right_inj "\n").mp hafter)
          exact ⟨rfl, hend⟩

/-! ## Fields -/

def hexText (n : Nat) : String := "0x" ++ String.ofList (Nat.toDigits 16 n)

theorem toDigits_sixteen {n : Nat} (hlow : 16 ≤ n) (hhigh : n < 256) :
    Nat.toDigits 16 n = [Nat.digitChar (n / 16), Nat.digitChar (n % 16)] := by
  rw [Nat.toDigits_of_base_le (by decide) hlow, Nat.toDigits_of_lt_base (by omega)]
  rfl

private theorem notMem_hexText {n : Nat} (hlow : 16 ≤ n) (hhigh : n < 256) {c : Char}
    (hmark : c ∉ "0x".toList) (hc : ∀ a : Fin 16, c ≠ Nat.digitChar a) :
    c ∉ (hexText n).toList := by
  have hdigits : c ∉ [Nat.digitChar (n / 16), Nat.digitChar (n % 16)] := by
    rw [List.mem_pair, not_or]
    exact ⟨hc ⟨n / 16, by omega⟩, hc ⟨n % 16, by omega⟩⟩
  rw [hexText, toDigits_sixteen hlow hhigh, String.toList_append, List.mem_append, not_or]
  exact ⟨hmark, by rwa [String.toList_ofList]⟩

theorem hexText_inj {m n : Nat} (hm : 16 ≤ m) (hm' : m < 256) (hn : 16 ≤ n) (hn' : n < 256)
    (h : hexText m = hexText n) : m = n := by
  have hdigit : ∀ a b : Fin 16, Nat.digitChar a = Nat.digitChar b → a = b := by decide
  have hdigits := String.ofList_injective ((String.append_right_inj "0x").mp h)
  rw [toDigits_sixteen hm hm', toDigits_sixteen hn hn'] at hdigits
  injection hdigits with hupper hrest
  injection hrest with hlower
  have hupper := hdigit ⟨m / 16, by omega⟩ ⟨n / 16, by omega⟩ hupper
  have hlower := hdigit ⟨m % 16, by omega⟩ ⟨n % 16, by omega⟩ hlower
  simp only [Fin.mk.injEq] at hupper hlower
  omega

theorem ofInt_zeros {field : Text.Field} (hzeros : field.zeros = true) (hfill : field.fill = none)
    (halignment : field.alignment = none) (hsign : field.sign = none)
    (hseparator : field.separator = none) (hletter : field.letter ≠ some 'X') (n : Nat) :
    field.ofInt n = String.ofList (field.baseMark ++
      (Nat.toDigits field.base n).leftpad (field.width - field.baseMark.length) '0') := by
  have hnegative : decide ((n : Int) < 0) = false := decide_eq_false (by omega)
  have hdigits : (Nat.toDigits field.base n).isEmpty = false := by simp
  have hfiller : field.filler = '0' := by rw [Text.Field.filler, hfill, hzeros]; rfl
  have hmissing : field.width - (field.baseMark.length + ((Nat.toDigits field.base n).leftpad
      (field.width - field.baseMark.length) '0').length) = 0 := by
    rw [List.leftpad, List.length_append, List.length_replicate]
    omega
  rw [Text.Field.ofInt, Int.natAbs_natCast, if_neg hletter, hnegative, Text.Field.ofNumber]
  simp only [halignment, hzeros, hfiller, Text.Field.signText, hsign, Text.Field.grouped,
    hseparator, hdigits, Text.Field.filling, Option.getD_none, if_true, if_false,
    Bool.false_eq_true, List.nil_append, List.append_nil, List.length_nil, Nat.add_zero, hmissing,
    List.replicate_zero]

theorem indexField_ofInt (i : Nat) :
    indexField.ofInt i = String.ofList ((Nat.toDigits 10 i).leftpad 4 '0') :=
  ofInt_zeros rfl rfl rfl rfl rfl (by decide) i

theorem codeField_ofInt {n : Nat} (hlow : 16 ≤ n) (hhigh : n < 256) :
    codeField.ofInt n = hexText n := by
  have hpad : (Nat.toDigits 16 n).leftpad 2 '0' = Nat.toDigits 16 n := by
    rw [toDigits_sixteen hlow hhigh]
    rfl
  have htext : codeField.ofInt n =
      String.ofList (['0', 'x'] ++ (Nat.toDigits 16 n).leftpad 2 '0') :=
    ofInt_zeros rfl rfl rfl rfl rfl (by decide) n
  rw [htext, hpad, String.ofList_append]
  rfl

/-! ## The lines of a table -/

/-- The line of a slot: its index, in four digits or more, and what is in the slot. -/
def slotLine (i : Nat) (content : String) : String :=
  String.ofList ((Nat.toDigits 10 i).leftpad 4 '0') ++ (" " ++ content)

def entryContent (tag : Tag) (key value : Value) : String :=
  "FILLED    " ++ (hexText tag.code ++ (" " ++ (key.render ++ " => " ++ value.render)))

/-- The state that the line of a slot names: the word after the digits of the index. -/
def stateWord (line : String) : String :=
  String.ofList (((line.toList.dropWhile Char.isDigit).drop 1).takeWhile (· ≠ ' '))

private theorem isDigit_of_mem_leftpad {n width : Nat} {c : Char}
    (hc : c ∈ (Nat.toDigits 10 n).leftpad width '0') : c.isDigit = true := by
  rw [List.leftpad, List.mem_append] at hc
  rcases hc with hzero | hdigit
  · rw [List.eq_of_mem_replicate hzero]
    rfl
  · exact Nat.isDigit_of_mem_toDigits (by omega) (by omega) hdigit

theorem slotLine_inj {i : Nat} {content content' : String} :
    slotLine i content = slotLine i content' ↔ content = content' := by
  rw [slotLine, slotLine, String.append_right_inj, String.append_right_inj]

theorem oneLine_slotLine {i : Nat} {content : String} (h : OneLine content) :
    OneLine (slotLine i content) := by
  rw [slotLine, oneLine_append, oneLine_append, oneLine_ofList]
  refine ⟨fun hbreak => ?_, by decide, h⟩
  have hdigit := isDigit_of_mem_leftpad hbreak
  cases hdigit

theorem stateWord_slotLine (i : Nat) (content : String) :
    stateWord (slotLine i content) = String.ofList (content.toList.takeWhile (· ≠ ' ')) := by
  have hrest : (slotLine i content).toList.dropWhile Char.isDigit = ' ' :: content.toList := by
    rw [slotLine, String.toList_append, String.toList_ofList,
      List.dropWhile_append_of_pos fun c hc => isDigit_of_mem_leftpad hc]
    simp
  rw [stateWord, hrest, List.drop_one, List.tail_cons]

theorem stateWord_entry (i : Nat) (tag : Tag) (k v : Value) :
    stateWord (slotLine i (entryContent tag k v)) = "FILLED" := by
  rw [stateWord_slotLine, entryContent, String.toList_append]
  rfl

section Entries

variable {tag tag' : Tag} {k k' v v' : Value}

theorem oneLine_entryContent (h : tag.isFilled = true) : OneLine (entryContent tag k v) := by
  obtain ⟨hlow, hhigh⟩ := Tag.code_bounds_of_isFilled h
  have hcode : OneLine (hexText tag.code) :=
    notMem_hexText (by omega) hhigh (by decide) (by decide)
  have hmarks : OneLine "FILLED    " ∧ OneLine " " ∧ OneLine " => " := by decide
  obtain ⟨hstate, hspace, harrow⟩ := hmarks
  simp only [entryContent, oneLine_append, Value.oneLine_render, hcode, hstate, hspace, harrow,
    and_self]

theorem tag_eq_of_entryContent_eq (h : tag.isFilled = true) (h' : tag'.isFilled = true)
    (heq : entryContent tag k v = entryContent tag' k' v') : tag = tag' := by
  obtain ⟨hlow, hhigh⟩ := Tag.code_bounds_of_isFilled h
  obtain ⟨hlow', hhigh'⟩ := Tag.code_bounds_of_isFilled h'
  have hspace (rest : String) : (" " ++ rest).toList.head? = some ' ' := by simp
  rw [entryContent, entryContent, String.append_right_inj] at heq
  have hhex := (pieces_eq (notMem_hexText (by omega) hhigh (by decide) (by decide))
    (notMem_hexText (by omega) hhigh' (by decide) (by decide)) (hspace _) (hspace _) heq).1
  have hcode := hexText_inj (by omega) hhigh (by omega) hhigh' hhex
  have htag := Tag.ofCode?_code tag
  rw [hcode, Tag.ofCode?_code] at htag
  exact (Option.some.inj htag).symm

end Entries

namespace Table

def counterLine (t : Table κ ν) : String :=
  "capacity " ++ (toString t.capacity ++ (", count " ++ (toString t.count ++ (", ndel " ++
    (toString t.dead ++ (", maxprobe " ++ (toString t.maxProbe ++ (", idxfloor " ++
      toString t.floor))))))))

theorem summary_eq (t : Table κ ν) : t.summary = t.counterLine ++ "\n" := by
  have hparts : t.summary = "capacity " ++ toString t.capacity ++ ", count " ++ toString t.count ++
      ", ndel " ++ toString t.dead ++ ", maxprobe " ++ toString t.maxProbe ++ ", " ++
      ("idxfloor " ++ toString t.floor ++ "\n") := rfl
  have hlabel (text : String) : ", " ++ ("idxfloor " ++ text) = ", idxfloor " ++ text := by
    rw [← String.append_assoc]
    rfl
  simp only [hparts, counterLine, String.append_assoc, hlabel]

theorem oneLine_counterLine (t : Table κ ν) : OneLine t.counterLine := by
  have hlabels : OneLine "capacity " ∧ OneLine ", count " ∧ OneLine ", ndel " ∧
      OneLine ", maxprobe " ∧ OneLine ", idxfloor " := by decide
  obtain ⟨hcapacity, hcount, hdead, hreach, hfloor⟩ := hlabels
  simp only [counterLine, oneLine_append, oneLine_nat, oneLine_int, hcapacity, hcount, hdead,
    hreach, hfloor, and_self]

theorem counterLine_inj {t t' : Table κ ν} (h : t.counterLine = t'.counterLine) :
    t.capacity = t'.capacity ∧ t.count = t'.count ∧ t.dead = t'.dead ∧
      t.maxProbe = t'.maxProbe ∧ t.floor = t'.floor := by
  have hcomma (n : Int) : ',' ∉ (toString n).toList := notMem_int rfl (by decide) n
  have hlabel (label : String) (rest : String) (hl : label.toList.head? = some ',') :
      (label ++ rest).toList.head? = some ',' := by
    rw [String.toList_append, List.head?_append, hl]
    rfl
  simp only [counterLine, String.append_right_inj] at h
  obtain ⟨hcapacity, h⟩ := pieces_eq (notMem_nat rfl _) (notMem_nat rfl _)
    (hlabel _ _ rfl) (hlabel _ _ rfl) h
  obtain ⟨hcount, h⟩ := pieces_eq (hcomma _) (hcomma _) (hlabel _ _ rfl) (hlabel _ _ rfl)
    ((String.append_right_inj _).mp h)
  obtain ⟨hdead, h⟩ := pieces_eq (hcomma _) (hcomma _) (hlabel _ _ rfl) (hlabel _ _ rfl)
    ((String.append_right_inj _).mp h)
  obtain ⟨hreach, h⟩ := pieces_eq (hcomma _) (hcomma _) (hlabel _ _ rfl) (hlabel _ _ rfl)
    ((String.append_right_inj _).mp h)
  have hfloor := (String.append_right_inj _).mp h
  exact ⟨toString_nat_inj hcapacity, toString_int_inj hcount, toString_int_inj hdead,
    toString_int_inj hreach, toString_int_inj hfloor⟩

/-! ## Slots -/

inductive Describes (t : Table Value Value) (i : Nat) : String → Prop where
  | empty (h : t.tagAt i = .empty) : Describes t i (slotLine i "EMPTY")
  | tombstone (h : t.tagAt i = .tombstone) : Describes t i (slotLine i "TOMBSTONE")
  | filled {k v : Value} (h : t.Holds i k v) :
      Describes t i (slotLine i (entryContent (t.tagAt i) k v))

namespace Describes

variable {t t' : Table Value Value} {i : Nat} {line line' : String}

theorem oneLine (h : t.Describes i line) : OneLine line := by
  cases h with
  | empty => exact oneLine_slotLine (by decide)
  | tombstone => exact oneLine_slotLine (by decide)
  | filled h => exact oneLine_slotLine (oneLine_entryContent h.filled)

theorem filled_iff (h : t.Describes i line) :
    stateWord line = "FILLED" ↔ (t.tagAt i).isFilled = true := by
  cases h with
  | empty h =>
      rw [stateWord_slotLine, h]
      decide
  | tombstone h =>
      rw [stateWord_slotLine, h]
      decide
  | filled h => exact iff_of_true (stateWord_entry _ _ _ _) h.filled

theorem tombstone_iff (h : t.Describes i line) :
    stateWord line = "TOMBSTONE" ↔ isTombstone (t.tagAt i) = true := by
  cases h with
  | empty h =>
      rw [stateWord_slotLine, h]
      decide
  | tombstone h =>
      rw [stateWord_slotLine, h]
      decide
  | filled h =>
      have hne := Tag.ne_of_isFilled h.filled Tag.isFilled_tombstone
      rw [stateWord_entry, isTombstone_iff]
      exact iff_of_false (by decide) hne

private theorem tag_of_free (h : t.Describes i line) (hf : (t.tagAt i).isFilled = false) :
    t.tagAt i = if stateWord line = "TOMBSTONE" then .tombstone else .empty := by
  cases h with
  | empty h =>
      rw [h, stateWord_slotLine, if_neg (by decide)]
  | tombstone h =>
      rw [h, stateWord_slotLine, if_pos (by decide)]
  | filled h => exact absurd h.filled (ne_true_of_eq_false hf)

private theorem line_of_filled (h : t.Describes i line) (hf : (t.tagAt i).isFilled = true) :
    ∃ k v, line = slotLine i (entryContent (t.tagAt i) k v) := by
  cases h with
  | empty h => exact absurd h (Tag.ne_of_isFilled hf Tag.isFilled_empty)
  | tombstone h => exact absurd h (Tag.ne_of_isFilled hf Tag.isFilled_tombstone)
  | filled h => exact ⟨_, _, rfl⟩

theorem tag_eq (h : t.Describes i line) (h' : t'.Describes i line) : t.tagAt i = t'.tagAt i := by
  have hiff : (t.tagAt i).isFilled = (t'.tagAt i).isFilled :=
    Bool.eq_iff_iff.mpr (h.filled_iff.symm.trans h'.filled_iff)
  cases hf : (t.tagAt i).isFilled with
  | false => rw [h.tag_of_free hf, h'.tag_of_free (hiff.symm.trans hf)]
  | true =>
      have hf' := hiff.symm.trans hf
      obtain ⟨k, v, hline⟩ := h.line_of_filled hf
      obtain ⟨k', v', hline'⟩ := h'.line_of_filled hf'
      exact tag_eq_of_entryContent_eq hf hf' (slotLine_inj.mp (hline.symm.trans hline'))

end Describes

/-- There is no number of too many digits in what the slot holds. -/
def WritableAt (t : Table Value Value) (i : Nat) : Prop :=
  ∀ k v, t.Holds i k v → k.isWritable = true ∧ v.isWritable = true

section Writing

variable {t : Table Value Value} {i : Nat} {line : String}

theorem Tagged.exists_describes (h : t.Tagged) (hfit : t.Fitted) (i : Nat) :
    ∃ line, t.Describes i line := by
  rcases h i with hempty | htomb | hf
  · exact ⟨_, .empty hempty⟩
  · exact ⟨_, .tombstone htomb⟩
  · obtain ⟨k, v, hk⟩ := exists_holds hfit.keys_size hfit.vals_size hf
    exact ⟨_, .filled hk⟩

private theorem dumpSlot_of_slotText {content : String}
    (h : t.slotText Value.written Value.written i = .ok (content ++ "\n")) :
    t.dumpSlot Value.written Value.written i = ⟨slotLine i content ++ "\n", none⟩ := by
  rw [dumpSlot, h, indexField_ofInt]
  simp only [slotLine, String.append_assoc]

private theorem slotText_of_free {tag : Tag} {state : String} (hi : i < t.capacity)
    (htag : t.tagAt i = tag) (hf : tag.isFilled = false)
    (hstate : stateName? tag.code = some state) :
    t.slotText Value.written Value.written i = .ok (state ++ "\n") := by
  rw [slotText, Op.tag_natCast hi, htag]
  simp only [bind, Except.bind, hstate, hf, Bool.false_eq_true, if_false]

private theorem slotText_of_holds {k v : Value} (h : t.Holds i k v) :
    t.slotText Value.written Value.written i =
      if k.isWritable = true ∧ v.isWritable = true then
        .ok (entryContent (t.tagAt i) k v ++ "\n")
      else .error (.refused .manyDigits) := by
  obtain ⟨hlow, hhigh⟩ := Tag.code_bounds_of_isFilled h.filled
  have hstate : stateField.ofText "FILLED" ++ " " = "FILLED    " := rfl
  have hcode : codeField.ofInt (t.tagAt i).code = hexText (t.tagAt i).code :=
    codeField_ofInt (by omega) hhigh
  rw [slotText, Op.tag_natCast h.lt, key_eq h.key, val_eq h.val]
  simp only [bind, Except.bind, Tag.stateName_of_isFilled h.filled, h.filled, if_true]
  cases hk : k.isWritable with
  | false => simp [Value.written, hk, Except.mapError]
  | true =>
      cases hv : v.isWritable with
      | false => simp [Value.written, hk, hv, Except.mapError]
      | true =>
          simp only [Value.written, hk, hv, if_true, Except.mapError, and_self, entryContent,
            ← hstate, hcode, String.append_assoc]

theorem Describes.dumpSlot_eq (h : t.Describes i line) (hw : t.WritableAt i)
    (hi : i < t.capacity) :
    t.dumpSlot Value.written Value.written i = ⟨line ++ "\n", none⟩ := by
  cases h with
  | empty h => exact dumpSlot_of_slotText (slotText_of_free hi h rfl rfl)
  | tombstone h => exact dumpSlot_of_slotText (slotText_of_free hi h rfl rfl)
  | filled h => exact dumpSlot_of_slotText ((slotText_of_holds h).trans (if_pos (hw _ _ h)))

/-- The index has been written when it turns out that the entry cannot be. -/
theorem Holds.dumpSlot_eq {k v : Value} (h : t.Holds i k v)
    (hw : ¬(k.isWritable = true ∧ v.isWritable = true)) :
    t.dumpSlot Value.written Value.written i = ⟨slotLine i "", some (.refused .manyDigits)⟩ := by
  have htext := (slotText_of_holds h).trans (if_neg hw)
  rw [dumpSlot, htext, indexField_ofInt, slotLine, String.append_empty]

theorem dumpSlots_add (key : κ → Except ε String) (value : ν → Except ε String) (t : Table κ ν)
    (m n i : Nat) (text : String) :
    t.dumpSlots key value (m + n) i text = match t.dumpSlots key value m i text with
      | ⟨text, none⟩ => t.dumpSlots key value n (i + m) text
      | ⟨text, some fault⟩ => ⟨text, some fault⟩ := by
  induction m generalizing i text with
  | zero => rw [Nat.zero_add, dumpSlots, Nat.add_zero]
  | succ m ih =>
      have hnext : i + 1 + m = i + (m + 1) := by omega
      rw [Nat.succ_add, dumpSlots, dumpSlots]
      split
      · rw [ih, hnext]
      · rfl

theorem dumpSlots_eq_printed {n i : Nat} {lines : List String}
    (h : List.Forall₂ t.Describes (List.range' i n) lines)
    (hw : ∀ j ∈ List.range' i n, t.WritableAt j) (hn : i + n ≤ t.capacity) (text : String) :
    t.dumpSlots Value.written Value.written n i text = ⟨text ++ printed lines, none⟩ := by
  induction n generalizing i lines text with
  | zero =>
      cases h
      rw [printed_nil, String.append_empty]
      rfl
  | succ n ih =>
      rw [List.range'_succ] at h hw
      obtain ⟨hwi, hwrest⟩ := List.forall_mem_cons.mp hw
      cases h with
      | cons hline hrest =>
          rw [dumpSlots, hline.dumpSlot_eq hwi (by omega)]
          dsimp only
          rw [ih hrest hwrest (by omega), printed_cons, String.append_assoc, String.append_assoc]

end Writing

/-! ## Whole listings -/

structure ListedAs (t : Table Value Value) (name : String) (lines : List String) : Prop where
  length_eq : lines.length = t.capacity + 2
  oneLine : ∀ line ∈ lines, OneLine line
  title : lines[0]? = some ("== " ++ name ++ " ==")
  counters : lines[1]? = some t.counterLine
  slots : List.Forall₂ t.Describes (List.range t.capacity) (lines.drop 2)
  filled : (lines.drop 2).countP (stateWord · = "FILLED") = t.count
  tombstones : (lines.drop 2).countP (stateWord · = "TOMBSTONE") = t.dead

/-- Of the lines of a table all are in a listing, or those before the first entry that cannot be
written. The index of that slot is the end then. -/
inductive Prints (t : Table Value Value) (lines : List String) : Listing Value Refusal → Prop where
  | whole (h : ∀ i, t.WritableAt i) : Prints t lines ⟨printed lines, none⟩
  | part {i : Nat} {k v : Value} (hk : t.Holds i k v)
      (hw : ¬(k.isWritable = true ∧ v.isWritable = true)) (hbefore : ∀ j < i, t.WritableAt j) :
      Prints t lines
        ⟨printed (lines.take (i + 2)) ++ slotLine i "", some (.refused .manyDigits)⟩

namespace Prints

variable {t : Table Value Value} {lines : List String} {listing : Listing Value Refusal}

theorem writableAt (h : t.Prints lines listing) (hwhole : listing.fault = none) (i : Nat) :
    t.WritableAt i := by
  cases h with
  | whole h => exact h i
  | part => cases hwhole

theorem eq_whole (h : t.Prints lines listing) (hwhole : listing.fault = none) :
    listing = ⟨printed lines, none⟩ := by
  cases h with
  | whole => rfl
  | part => cases hwhole

theorem fault_eq (h : t.Prints lines listing) (hfault : listing.fault.isSome = true) :
    listing.fault = some (.refused .manyDigits) := by
  cases h with
  | whole => cases hfault
  | part => rfl

end Prints

theorem tallyBelow_eq_countP (t : Table κ ν) (p : Tag → Bool) (n : Nat) :
    t.tallyBelow p n = (List.range n).countP fun i => p (t.tagAt i) := by
  induction n with
  | zero => rfl
  | succ n ih =>
      rw [tallyBelow_succ, ih, List.range_succ, List.countP_append, List.countP_singleton]

private theorem countP_stateWord {t : Table Value Value} {p : Tag → Bool} {word : String}
    (hword : ∀ {i line}, t.Describes i line → (stateWord line = word ↔ p (t.tagAt i) = true))
    {indices : List Nat} {lines : List String} (h : List.Forall₂ t.Describes indices lines) :
    lines.countP (stateWord · = word) = indices.countP fun i => p (t.tagAt i) := by
  induction h with
  | nil => rfl
  | cons hline _ ih =>
      rw [List.countP_cons, List.countP_cons, ih]
      simp only [decide_eq_true_eq, hword hline]

theorem Tagged.exists_lines {t : Table Value Value} (h : t.Tagged) (hfit : t.Fitted)
    (indices : List Nat) : ∃ lines, List.Forall₂ t.Describes indices lines := by
  induction indices with
  | nil => exact ⟨[], .nil⟩
  | cons i rest ih =>
      obtain ⟨line, hline⟩ := h.exists_describes hfit i
      obtain ⟨lines, hlines⟩ := ih
      exact ⟨line :: lines, .cons hline hlines⟩

private theorem oneLine_lines {t : Table Value Value} {indices : List Nat} {lines : List String}
    (h : List.Forall₂ t.Describes indices lines) : ∀ line ∈ lines, OneLine line := by
  induction h with
  | nil => exact fun _ hline => absurd hline List.not_mem_nil
  | cons hline _ ih => exact List.forall_mem_cons.mpr ⟨hline.oneLine, ih⟩

private theorem tagAt_eq_of_lines {t t' : Table Value Value} {indices : List Nat}
    {lines : List String} (h : List.Forall₂ t.Describes indices lines)
    (h' : List.Forall₂ t'.Describes indices lines) : ∀ i ∈ indices, t.tagAt i = t'.tagAt i := by
  induction h with
  | nil => exact fun _ hi => absurd hi List.not_mem_nil
  | cons hline _ ih =>
      cases h' with
      | cons hline' hrest' => exact List.forall_mem_cons.mpr ⟨hline.tag_eq hline', ih hrest'⟩

theorem Legible.exists_listedAs {t : Table Value Value} (h : t.Legible) {name : String}
    (hname : OneLine name) : ∃ lines, t.ListedAs name lines := by
  obtain ⟨slots, hslots⟩ := h.tagged.exists_lines h.toFitted (List.range t.capacity)
  have htitle : OneLine ("== " ++ name ++ " ==") := by
    rw [oneLine_append, oneLine_append]
    exact ⟨⟨by decide, hname⟩, by decide⟩
  refine ⟨("== " ++ name ++ " ==") :: t.counterLine :: slots, ?_, ?_, rfl, rfl, hslots, ?_, ?_⟩
  · rw [List.length_cons, List.length_cons, ← hslots.length_eq, List.length_range]
  · rw [List.forall_mem_cons, List.forall_mem_cons]
    exact ⟨htitle, t.oneLine_counterLine, oneLine_lines hslots⟩
  · rw [h.count_eq, ← tallyBelow_capacity, tallyBelow_eq_countP]
    exact congrArg Int.ofNat (countP_stateWord Describes.filled_iff hslots)
  · rw [h.dead_eq, ← tallyBelow_capacity, tallyBelow_eq_countP]
    exact congrArg Int.ofNat (countP_stateWord Describes.tombstone_iff hslots)

namespace ListedAs

variable {t t' : Table Value Value} {name : String} {lines lines' : List String}

theorem eq_cons (h : t.ListedAs name lines) :
    lines = ("== " ++ name ++ " ==") :: t.counterLine :: lines.drop 2 := by
  have hlength := h.length_eq
  have htitle := h.title
  have hcounters := h.counters
  match lines, hlength with
  | first :: second :: rest, _ =>
      cases htitle
      cases hcounters
      rfl

theorem dump_eq_dumpSlots (h : t.ListedAs name lines) (key value : Value → Except ε String) :
    t.dump key value name = t.dumpSlots key value t.capacity 0 (printed (lines.take 2)) := by
  have hend : " ==\n" = " ==" ++ "\n" := rfl
  rw [dump, summary_eq, h.eq_cons, List.take_succ_cons, List.take_succ_cons, List.take_zero]
  simp only [hend, printed_cons, printed_nil, String.append_empty, String.append_assoc]

private theorem slots_take (h : t.ListedAs name lines) {n : Nat} (hn : n ≤ t.capacity) :
    List.Forall₂ t.Describes (List.range n) ((lines.take (n + 2)).drop 2) := by
  have htake := List.forall₂_take n h.slots
  rwa [List.take_range, Nat.min_eq_left hn, List.take_drop, Nat.add_comm] at htake

private theorem dumpSlots_take (h : t.ListedAs name lines) {n : Nat} (hn : n ≤ t.capacity)
    (hw : ∀ j < n, t.WritableAt j) :
    t.dumpSlots Value.written Value.written n 0 (printed (lines.take 2)) =
      ⟨printed (lines.take (n + 2)), none⟩ := by
  have hslots := h.slots_take hn
  rw [List.range_eq_range'] at hslots
  have hbelow : ∀ j ∈ List.range' 0 n, t.WritableAt j := fun j hj => hw j (by
    have := List.mem_range'_1.mp hj
    omega)
  have hsplit := List.take_append_drop 2 (lines.take (n + 2))
  rw [List.take_take, Nat.min_eq_left (by omega)] at hsplit
  rw [dumpSlots_eq_printed hslots hbelow (by omega), ← printed_append, hsplit]

theorem prints (h : t.ListedAs name lines) :
    t.Prints lines (t.dump Value.written Value.written name) := by
  classical
  rw [h.dump_eq_dumpSlots]
  by_cases hall : ∀ i, t.WritableAt i
  · have hlines : lines.take (t.capacity + 2) = lines := List.take_of_length_le h.length_eq.le
    rw [h.dumpSlots_take (Nat.le_refl _) fun j _ => hall j, hlines]
    exact .whole hall
  · rw [not_forall] at hall
    have hbefore : ∀ j < Nat.find hall, t.WritableAt j := fun j hj =>
      not_not.mp (Nat.find_min hall hj)
    have hfirst := Nat.find_spec hall
    generalize Nat.find hall = i at hfirst hbefore
    simp only [WritableAt, not_forall] at hfirst
    obtain ⟨k, v, hk, hw⟩ := hfirst
    have hlt := hk.lt
    obtain ⟨rest, hrest⟩ : ∃ rest, t.capacity = i + (rest + 1) :=
      ⟨t.capacity - i - 1, by omega⟩
    rw [hrest, dumpSlots_add, h.dumpSlots_take hlt.le hbefore]
    dsimp only
    rw [Nat.zero_add, dumpSlots, hk.dumpSlot_eq hw]
    exact .part hk hw hbefore

/-- Whatever the end of a listing is, it can be told from the lines before it. -/
private theorem cut (h : t.ListedAs name lines) {listing : Listing Value Refusal}
    (hp : t.Prints lines listing) :
    ∃ n rest, n ≤ t.capacity ∧ OneLine rest ∧
      listing.text = printed (lines.take (n + 2)) ++ rest ∧
      ∀ j < t.capacity, (∀ i ≤ j, t.WritableAt i) → j < n := by
  cases hp with
  | whole =>
      refine ⟨t.capacity, "", Nat.le_refl _, by decide, ?_, fun j hj _ => hj⟩
      rw [← h.length_eq, List.take_length, String.append_empty]
  | @part i k v hk hw hbefore =>
      refine ⟨i, _, hk.lt.le, oneLine_slotLine (by decide), rfl, fun j _ hj => ?_⟩
      by_contra hle
      exact hw (hj i (Nat.le_of_not_lt hle) k v hk)

theorem read (h : t.ListedAs name lines) (h' : t'.ListedAs name lines')
    {listing : Listing Value Refusal} (hp : t.Prints lines listing)
    (hp' : t'.Prints lines' listing) :
    (t.capacity = t'.capacity ∧ t.count = t'.count ∧ t.dead = t'.dead ∧
      t.maxProbe = t'.maxProbe ∧ t.floor = t'.floor) ∧
    ∀ j, (∀ i ≤ j, t.WritableAt i) → t.tagAt j = t'.tagAt j := by
  obtain ⟨n, rest, hn, hrest, htext, hbelow⟩ := h.cut hp
  obtain ⟨n', rest', hn', hrest', htext', -⟩ := h'.cut hp'
  have hlines : lines.take (n + 2) = lines'.take (n' + 2) :=
    (printed_append_inj (fun line hline => h.oneLine line (List.mem_of_mem_take hline))
      (fun line hline => h'.oneLine line (List.mem_of_mem_take hline)) hrest hrest'
      (htext.symm.trans htext')).1
  have hsame : n = n' := by
    have hlength := congrArg List.length hlines
    rw [List.length_take, List.length_take, h.length_eq, h'.length_eq] at hlength
    omega
  subst hsame
  have hcounters : lines[1]? = lines'[1]? := by
    have hsecond := congrArg (·[1]?) hlines
    simpa only [List.getElem?_take_of_lt (Nat.lt_add_left n Nat.one_lt_two)] using hsecond
  rw [h.counters, h'.counters] at hcounters
  have hcounters := counterLine_inj (Option.some.inj hcounters)
  refine ⟨hcounters, fun j hj => ?_⟩
  by_cases hlt : j < t.capacity
  · have hslots' := h'.slots_take hn'
    rw [← hlines] at hslots'
    exact tagAt_eq_of_lines (h.slots_take hn) hslots' j (List.mem_range.mpr (hbelow j hlt hj))
  · rw [tagAt_of_le (Nat.le_of_not_lt hlt),
      tagAt_of_le (hcounters.1.symm.trans_le (Nat.le_of_not_lt hlt))]

end ListedAs

end Table

/-! ## Dumps -/

private theorem inField_text (s : String) :
    (Value.str s).inField { letter := some 's' } = .ok s := by
  have hplain : ({ letter := some 's' } : Text.Field).ofText s = s := by
    simp [Text.Field.ofText, Text.Field.filling]
  have hfield : (Value.str s).inField { letter := some 's' } =
      .ok (({ letter := some 's' } : Text.Field).ofText s) := rfl
  rw [hfield, hplain]

theorem Session.run_dump {session : Session} {held : String} {t : Table Value Value}
    (hheld : session.table? held = some t) (name : String) :
    let listing := t.dump Value.written Value.written name
    session.run (.ask held (.dump (.str name))) =
      (⟨match listing.fault with
        | none => .ok .nothing
        | some fault => .error fault, listing.text, ""⟩, session) := by
  intro listing
  obtain ⟨holding, hholding, rfl⟩ := Option.map_eq_some_iff.mp hheld
  obtain ⟨id, hid, hholding⟩ := Option.bind_eq_some_iff.mp hholding
  have hnumber : Act.numberOf held { session } = .ok id { session } := by
    rw [Act.numberOf, Act.named_run, hid]
  have hlook : Act.look id (fun _ t => .ok (t.dump Value.written Value.written name)) { session } =
      .ok listing { session } := by
    rw [Act.look_run, hholding]
  have hact : Act.perform (.ask held (.dump (.str name))) { session } =
      (do Act.printListing listing; pure .nothing : Act Answer) { session } := by
    change EStateM.bind (Act.numberOf held) _ { session } = _
    rw [EStateM.bind, hnumber]
    dsimp only
    rw [Act.respond, inField_text]
    change EStateM.bind (Act.look id _) _ { session } = _
    rw [EStateM.bind, hlook]
  rw [Session.run, hact]
  clear_value listing
  obtain ⟨text, fault⟩ := listing
  cases fault with
  | none =>
      change ((⟨.ok .nothing, "" ++ text, ""⟩ : Reply), session) = _
      rw [String.empty_append]
  | some fault =>
      change ((⟨.error fault, "" ++ text, ""⟩ : Reply), session) = _
      rw [String.empty_append]

def Manner.values (memory : Memory) : Manner Value Value Refusal where
  key := Value.written
  value := Value.written
  differ a b := !a.equal b
  listLimit := some memory.listed

namespace Shelf

variable {memory : Memory} {requests : List (Request Value Value Refusal)} {id : Nat}
  {t : Table Value Value} {name : String}

theorem dump_onShelf {s : Shelf Value Value Refusal} (hs : s.table? id = some t) :
    (Request.observe (.ask id (.dump name))).onShelf (Manner.values memory) s =
      (.ok (.listing (t.dump Value.written Value.written name)), s) := by
  obtain ⟨v, hv, rfl⟩ := Option.map_eq_some_iff.mp hs
  have hends : ((Request.observe (.ask id (.dump name))).perform (Manner.values memory)).Ends s
      (fun a s' => a = .listing (v.table.dump Value.written Value.written name) ∧ s' = s)
      fun _ _ => False := by
    rw [Request.perform, Observation.perform, Errand.ends_query hv, Question.answer]
    exact ⟨rfl, rfl⟩
  rcases hends.onShelf with ⟨a, ha, rfl, hsame⟩ | ⟨_, -, hl⟩
  · exact Prod.ext ha hsame
  · exact hl.elim

/-- Every table that requests lead to, under whatever rules, is listed under every name of one line:
there is a line for each slot after two for the whole table, and as many lines say `FILLED` and
`TOMBSTONE` as entries and tombstones are counted. A number of too many digits ends the listing
at its slot. Neither the shelf nor a session that prints the listing changes, and tables with the
same listing have the same counters and, as far as it goes, the same tags. -/
theorem dumps_list_slots (ht : (reached (Manner.values memory) requests).table? id = some t)
    (hname : OneLine name) :
    let listing := t.dump Value.written Value.written name
    let dump (id : Nat) : Request Value Value Refusal := .observe (.ask id (.dump name))
    ∃ lines, t.ListedAs name lines ∧ t.Prints lines listing ∧
      (dump id).onShelf (Manner.values memory) (reached (Manner.values memory) requests) =
        (.ok (.listing listing), reached (Manner.values memory) requests) ∧
      (∀ (session : Session) (held : String), session.table? held = some t →
        session.run (.ask held (.dump (.str name))) =
          (⟨match listing.fault with
            | none => .ok .nothing
            | some fault => .error fault, listing.text, ""⟩, session)) ∧
      ∀ {memory' requests' id' t'},
        (reached (Manner.values memory') requests').table? id' = some t' →
        ((dump id').onShelf (Manner.values memory') (reached (Manner.values memory') requests')).1 =
          .ok (.listing listing) →
        (t.capacity = t'.capacity ∧ t.count = t'.count ∧ t.dead = t'.dead ∧
          t.maxProbe = t'.maxProbe ∧ t.floor = t'.floor) ∧
        (∀ j, (∀ i ≤ j, t.WritableAt i) → t.tagAt j = t'.tagAt j) ∧
        (listing.fault = none → t.tags = t'.tags) := by
  intro listing dump
  have hlegible : t.Legible := upheld_reached Table.upheld_legible ht
  obtain ⟨lines, hlines⟩ := hlegible.exists_listedAs hname
  refine ⟨lines, hlines, hlines.prints, dump_onShelf ht,
    fun session held hheld => Session.run_dump hheld name, ?_⟩
  intro memory' requests' id' t' ht' hsame
  have hlegible' : t'.Legible := upheld_reached Table.upheld_legible ht'
  obtain ⟨lines', hlines'⟩ := hlegible'.exists_listedAs hname
  rw [dump_onShelf ht'] at hsame
  have hlisting := Answer.listing.inj (Except.ok.inj hsame)
  have hprints' := hlines'.prints
  rw [hlisting] at hprints'
  obtain ⟨hcounters, htags⟩ := hlines.read hlines' hlines.prints hprints'
  refine ⟨hcounters, htags, fun hwhole => Array.ext hcounters.1 fun i hi hi' => ?_⟩
  have htag := htags i fun j _ => hlines.prints.writableAt hwhole j
  simpa [Table.tagAt, hi, hi'] using htag

/-- Two of three colliding keys are left, a tombstone between them. A copy has the same listing. -/
theorem dumps_list_slots_copy :
    let rules := (Holding.new (.constant 7) .same).rules {}
    let requests : List (Request Value Value Refusal) :=
      [.create rules 0, .change 0 (.set (.int 1) (.str "one\n")), .change 0 (.set .null (.int 2)),
        .change 0 (.set (.tuple []) (.list [])), .change 0 (.delete .null), .copy 0]
    let s := reached (Manner.values {}) requests
    ∃ t u lines, s.table? 0 = some t ∧ s.table? 1 = some u ∧ (t.count, t.dead) = (2, 1) ∧
      t.ListedAs "t" lines ∧ u.tags = t.tags ∧
      (Request.observe (.ask 0 (.dump "t"))).onShelf (Manner.values {}) s =
        (.ok (.listing ⟨printed lines, none⟩), s) ∧
      (({ holdings := #[⟨t, .constant 7, .same⟩], names := [("t", 0)] } : Session).run
        (.ask "t" (.dump (.str "t")))).1 = ⟨.ok .nothing, printed lines, ""⟩ := by
  intro rules requests s
  have hcounts : (s.table? 0).map (fun t => ((t.count, t.dead),
      (t.dump Value.written Value.written "t").fault.isNone)) = some ((2, 1), true) := by
    decide +kernel
  have hcopied : (s.table? 1).map (fun t => ((t.dump Value.written Value.written "t").text,
      (t.dump Value.written Value.written "t").fault.isNone)) =
      (s.table? 0).map fun t => ((t.dump Value.written Value.written "t").text, true) := by
    decide +kernel
  -- From here on the requests are any, which keeps them from being carried out again.
  clear_value requests
  obtain ⟨t, ht, hcounts⟩ := Option.map_eq_some_iff.mp hcounts
  obtain ⟨hcount, hwhole⟩ := Prod.mk.inj hcounts
  have hwhole := Option.isNone_iff_eq_none.mp hwhole
  rw [ht, Option.map_some] at hcopied
  obtain ⟨u, hu, hcopied⟩ := Option.map_eq_some_iff.mp hcopied
  obtain ⟨htext, hwhole'⟩ := Prod.mk.inj hcopied
  have hsame := Listing.ext htext ((Option.isNone_iff_eq_none.mp hwhole').trans hwhole.symm)
  obtain ⟨lines, hlines, hprints, hdump, hrun, hread⟩ :=
    dumps_list_slots ht (by decide : OneLine "t")
  have hlisting := hprints.eq_whole hwhole
  obtain ⟨-, -, htags⟩ := hread hu (by rw [dump_onShelf hu, hsame])
  refine ⟨t, u, lines, ht, hu, hcount, hlines, (htags hwhole).symm, ?_, ?_⟩
  · rw [hdump, hlisting]
  · rw [hrun _ "t" rfl, hlisting]

/-- Tables with long numbers in them are reached too, and their listings end early. -/
theorem dumps_can_fail :
    let requests : List (Request Value Value Refusal) :=
      [.create ((Holding.new .standard .same).rules {}) 0,
        .change 0 (.set (.int 3) (.int (10 ^ 6000)))]
    ∃ t, (reached (Manner.values {}) requests).table? 0 = some t ∧
      (({ holdings := #[⟨t, .standard, .same⟩], names := [("t", 0)] } : Session).run
        (.ask "t" (.dump (.str "d")))).1.outcome = .error (.refused .manyDigits) := by
  intro requests
  have hfails : ((reached (Manner.values {}) requests).table? 0).map
      (fun t => (t.dump Value.written Value.written "d").fault.isSome) = some true := by
    decide +kernel
  clear_value requests
  obtain ⟨t, ht, hfails⟩ := Option.map_eq_some_iff.mp hfails
  have hlegible : t.Legible := upheld_reached Table.upheld_legible ht
  obtain ⟨lines, hlines⟩ := hlegible.exists_listedAs (by decide : OneLine "d")
  refine ⟨t, ht, ?_⟩
  let session : Session := { holdings := #[⟨t, .standard, .same⟩], names := [("t", 0)] }
  have hheld : session.table? "t" = some t := rfl
  change (session.run _).1.outcome = _
  rw [Session.run_dump hheld "d", hlines.prints.fault_eq hfails]

end Shelf

end OpenAddressing
