import OpenAddressing.Proofs.Age
import OpenAddressing.Proofs.Comparison

/-!
# What many entries make of a table

Entries that are set or merged one after the other each change the entry of one class of keys.
So the content of the table that is left can be told from the content before and from the entries:
of the entries of a class the last value counts, and the key that is stored first.
-/

namespace OpenAddressing

variable {κ ν ε : Type} {rules : Rules κ ε} {same : Setoid κ}

namespace Table

variable {t t' u : Table κ ν} {key k l : κ} {value v w x : ν} {found : Option (κ × ν)}
  {entry : κ × ν} {entries rest : List (κ × ν)} {combine : Nat → ν → ν → Except ε ν} {serial : Nat}

/-! ## One entry -/

/-- The entry of a key, which is the one found or a new one, has got a value; all others are as
they were. -/
structure Absorbs (same : Setoid κ) (key : κ) (value : ν) (found : Option (κ × ν))
    (t t' : Table κ ν) : Prop where
  found_spec : t.Found same key found
  has_iff (l : κ) (w : ν) :
    t'.Has l w ↔ t.Has l w ∧ ¬same.r key l ∨ l = (found.map (·.1)).getD key ∧ w = value

namespace Absorbs

theorem same_stored (h : Absorbs same key value found t t') :
    same.r key ((found.map (·.1)).getD key) := by
  have hfound := h.found_spec
  cases found with
  | none => exact same.refl key
  | some e => exact hfound.2

theorem has_iff_of_same (h : Absorbs same key value found t t') (hs : same.r key l) :
    t'.Has l w ↔ l = (found.map (·.1)).getD key ∧ w = value := by
  rw [h.has_iff]
  simp [hs]

theorem has_iff_of_not_same (h : Absorbs same key value found t t') (hs : ¬same.r key l) :
    t'.Has l w ↔ t.Has l w := by
  have hne : l ≠ (found.map (·.1)).getD key := by
    rintro rfl
    exact hs h.same_stored
  rw [h.has_iff]
  simp [hs, hne]

theorem lacks_iff_of_not_same (h : Absorbs same key value found t t') (hs : ¬same.r key l) :
    t'.Lacks same l ↔ t.Lacks same l := by
  have hkeep {k : κ} (hk : same.r l k) (v : ν) : t'.Has k v ↔ t.Has k v :=
    h.has_iff_of_not_same fun hkey => hs (same.trans hkey (same.symm hk))
  constructor
  · intro hlacks i k v hi hk
    obtain ⟨j, hj⟩ := (hkeep hk v).mpr ⟨i, hi⟩
    exact hlacks hj hk
  · intro hlacks i k v hi hk
    obtain ⟨j, hj⟩ := (hkeep hk v).mp ⟨i, hi⟩
    exact hlacks hj hk

theorem not_lacks (h : Absorbs same key value found t t') (hs : same.r key l) :
    ¬t'.Lacks same l := by
  intro hlacks
  obtain ⟨i, hi⟩ := (h.has_iff_of_same h.same_stored).mpr ⟨rfl, rfl⟩
  exact hlacks hi (same.trans (same.symm hs) h.same_stored)

theorem eq_stored_iff (h : Absorbs same key value found t t') (ht : t.Arranged rules same)
    (hs : same.r key l) :
    l = (found.map (·.1)).getD key ↔ (∃ v, t.Has l v) ∨ t.Lacks same l ∧ l = key := by
  have hfound := h.found_spec
  cases found with
  | none =>
      constructor
      · rintro rfl
        exact Or.inr ⟨hfound, rfl⟩
      · rintro (⟨v, i, hi⟩ | ⟨-, rfl⟩)
        · exact absurd hs (hfound hi)
        · rfl
  | some e =>
      obtain ⟨⟨i, hi⟩, hkey⟩ := hfound
      constructor
      · rintro rfl
        exact Or.inl ⟨e.2, i, hi⟩
      · rintro (⟨v, hv⟩ | ⟨hlacks, -⟩)
        · exact (ht.has_unique hv ⟨i, hi⟩ (same.trans (same.symm hs) hkey)).1
        · exact absurd (same.trans (same.symm hs) hkey) (hlacks hi)

end Absorbs

theorem Assigned.absorbs [Inhabited κ] [Inhabited ν] (h : Assigned rules same key value t t')
    (ht : t.Sound rules same) : ∃ found, Absorbs same key value found t t' := by
  obtain ⟨found, hfound, hhas⟩ := h.has_iff ht
  exact ⟨found, hfound, hhas⟩

/-! ## Entries that are set -/

def LastValue (same : Setoid κ) (entries : List (κ × ν)) (key : κ) (value : ν) : Prop :=
  ∃ before l after, entries = before ++ (l, value) :: after ∧ same.r key l ∧
    ∀ e ∈ after, ¬same.r key e.1

def FirstKey (same : Setoid κ) (entries : List (κ × ν)) (key : κ) : Prop :=
  ∃ before v after, entries = before ++ (key, v) :: after ∧ ∀ e ∈ before, ¬same.r key e.1

/-- The entries that are left when all of a list are set in order. -/
inductive Overlay (same : Setoid κ) (t : Table κ ν) (entries : List (κ × ν)) : κ → ν → Prop where
  | kept {k : κ} {v : ν} (hk : t.Has k v) (hnew : ∀ e ∈ entries, ¬same.r k e.1) :
      Overlay same t entries k v
  | replaced {k : κ} {v x : ν} (hk : t.Has k v) (hlast : LastValue same entries k x) :
      Overlay same t entries k x
  | added {k : κ} {x : ν} (hnew : t.Lacks same k) (hfirst : FirstKey same entries k)
      (hlast : LastValue same entries k x) : Overlay same t entries k x

theorem lastValue_cons_of_not_same (hs : ¬same.r k entry.1) :
    LastValue same (entry :: rest) k x ↔ LastValue same rest k x := by
  constructor
  · rintro ⟨before, l, after, heq, hl, hafter⟩
    cases before with
    | nil =>
        obtain ⟨rfl, -⟩ := List.cons.inj heq
        exact absurd hl hs
    | cons e before => exact ⟨before, l, after, (List.cons.inj heq).2, hl, hafter⟩
  · rintro ⟨before, l, after, rfl, hl, hafter⟩
    exact ⟨entry :: before, l, after, rfl, hl, hafter⟩

theorem lastValue_cons_of_same (hs : same.r k entry.1) :
    LastValue same (entry :: rest) k x ↔
      LastValue same rest k x ∨ (∀ e ∈ rest, ¬same.r k e.1) ∧ x = entry.2 := by
  constructor
  · rintro ⟨before, l, after, heq, hl, hafter⟩
    cases before with
    | nil =>
        obtain ⟨rfl, rfl⟩ := List.cons.inj heq
        exact Or.inr ⟨hafter, rfl⟩
    | cons e before => exact Or.inl ⟨before, l, after, (List.cons.inj heq).2, hl, hafter⟩
  · rintro (⟨before, l, after, rfl, hl, hafter⟩ | ⟨hrest, rfl⟩)
    · exact ⟨entry :: before, l, after, rfl, hl, hafter⟩
    · exact ⟨[], entry.1, rest, rfl, hs, hrest⟩

theorem firstKey_cons_of_not_same (hs : ¬same.r k entry.1) :
    FirstKey same (entry :: rest) k ↔ FirstKey same rest k := by
  constructor
  · rintro ⟨before, v, after, heq, hbefore⟩
    cases before with
    | nil =>
        obtain ⟨rfl, -⟩ := List.cons.inj heq
        exact absurd (same.refl k) hs
    | cons e before =>
        exact ⟨before, v, after, (List.cons.inj heq).2, fun f hf => hbefore f (by simp [hf])⟩
  · rintro ⟨before, v, after, rfl, hbefore⟩
    refine ⟨entry :: before, v, after, rfl, fun e he => ?_⟩
    rcases List.mem_cons.mp he with rfl | he
    · exact hs
    · exact hbefore e he

theorem firstKey_cons_of_same (hs : same.r k entry.1) :
    FirstKey same (entry :: rest) k ↔ k = entry.1 := by
  constructor
  · rintro ⟨before, v, after, heq, hbefore⟩
    cases before with
    | nil =>
        obtain ⟨rfl, -⟩ := List.cons.inj heq
        rfl
    | cons e before =>
        obtain ⟨rfl, -⟩ := List.cons.inj heq
        exact absurd hs (hbefore entry (by simp))
  · rintro rfl
    exact ⟨[], entry.2, rest, rfl, by simp⟩

private theorem Absorbs.overlay_iff_of_same (h : Absorbs same entry.1 entry.2 found t u)
    (ht : t.Arranged rules same) (hs : same.r entry.1 k) (x : ν) :
    Overlay same u rest k x ↔ Overlay same t (entry :: rest) k x := by
  have hs' : same.r k entry.1 := same.symm hs
  have hstored := h.eq_stored_iff ht hs
  have hlast : LastValue same (entry :: rest) k x ↔
      LastValue same rest k x ∨ (∀ e ∈ rest, ¬same.r k e.1) ∧ x = entry.2 :=
    lastValue_cons_of_same hs'
  have hfirst : FirstKey same (entry :: rest) k ↔ k = entry.1 := firstKey_cons_of_same hs'
  have hset (hx : LastValue same (entry :: rest) k x) (hl : k = (found.map (·.1)).getD entry.1) :
      Overlay same t (entry :: rest) k x := by
    rcases hstored.mp hl with ⟨v, hv⟩ | ⟨hlacks, hkey⟩
    · exact .replaced hv hx
    · exact .added hlacks (hfirst.mpr hkey) hx
  have hunset (hl : k = (found.map (·.1)).getD entry.1)
      (hx : LastValue same (entry :: rest) k x) : Overlay same u rest k x := by
    have hk : u.Has k entry.2 := (h.has_iff_of_same hs).mpr ⟨hl, rfl⟩
    rcases hlast.mp hx with hrest | ⟨hnew, rfl⟩
    · exact .replaced hk hrest
    · exact .kept hk hnew
  constructor
  · rintro (⟨hk, hnew⟩ | ⟨hk, hrest⟩ | ⟨hlacks, -, -⟩)
    · obtain ⟨hl, rfl⟩ := (h.has_iff_of_same hs).mp hk
      exact hset (hlast.mpr (Or.inr ⟨hnew, rfl⟩)) hl
    · exact hset (hlast.mpr (Or.inl hrest)) ((h.has_iff_of_same hs).mp hk).1
    · exact absurd hlacks (h.not_lacks hs)
  · rintro (⟨-, hnew⟩ | ⟨hk, hx⟩ | ⟨hlacks, hkey, hx⟩)
    · exact absurd hs' (hnew entry (by simp))
    · exact hunset (hstored.mpr (Or.inl ⟨_, hk⟩)) hx
    · exact hunset (hstored.mpr (Or.inr ⟨hlacks, hfirst.mp hkey⟩)) hx

private theorem Absorbs.overlay_iff_of_not_same (h : Absorbs same entry.1 value found t u)
    (hs : ¬same.r entry.1 k) (x : ν) :
    Overlay same u rest k x ↔ Overlay same t (entry :: rest) k x := by
  have hs' : ¬same.r k entry.1 := fun hk => hs (same.symm hk)
  have hlast : LastValue same (entry :: rest) k x ↔ LastValue same rest k x :=
    lastValue_cons_of_not_same hs'
  have hfirst : FirstKey same (entry :: rest) k ↔ FirstKey same rest k :=
    firstKey_cons_of_not_same hs'
  have hhas (v : ν) : u.Has k v ↔ t.Has k v := h.has_iff_of_not_same hs
  have hlacks := h.lacks_iff_of_not_same hs
  have hnew : (∀ e ∈ entry :: rest, ¬same.r k e.1) ↔ ∀ e ∈ rest, ¬same.r k e.1 := by
    simp [hs']
  constructor
  · rintro (⟨hk, hn⟩ | ⟨hk, hx⟩ | ⟨hn, hkey, hx⟩)
    · exact .kept ((hhas _).mp hk) (hnew.mpr hn)
    · exact .replaced ((hhas _).mp hk) (hlast.mpr hx)
    · exact .added (hlacks.mp hn) (hfirst.mpr hkey) (hlast.mpr hx)
  · rintro (⟨hk, hn⟩ | ⟨hk, hx⟩ | ⟨hn, hkey, hx⟩)
    · exact .kept ((hhas _).mpr hk) (hnew.mp hn)
    · exact .replaced ((hhas _).mpr hk) (hlast.mp hx)
    · exact .added (hlacks.mpr hn) (hfirst.mp hkey) (hlast.mp hx)

def Updated (same : Setoid κ) (t : Table κ ν) (entries : List (κ × ν)) (t' : Table κ ν) : Prop :=
  ∀ k x, t'.Has k x ↔ Overlay same t entries k x

theorem updated_nil (t : Table κ ν) : Updated same t [] t := by
  intro k x
  constructor
  · intro hk
    exact .kept hk (by simp)
  · rintro (⟨hk, -⟩ | ⟨-, ⟨before, l, after, heq, -⟩⟩ | ⟨-, ⟨before, v, after, heq, -⟩, -⟩)
    · exact hk
    · simp at heq
    · simp at heq

theorem Updated.cons (h : Absorbs same entry.1 entry.2 found t u) (ht : t.Arranged rules same)
    (hrest : Updated same u rest t') : Updated same t (entry :: rest) t' := by
  intro k x
  rw [hrest k x]
  by_cases hs : same.r entry.1 k
  · exact h.overlay_iff_of_same ht hs x
  · exact h.overlay_iff_of_not_same hs x

/-! ## Entries that are merged -/

/-- The entries that are left when those of a list, in which each class occurs once at most, are
merged into a table. The numbers of the entries begin with `serial`. -/
inductive Blend (same : Setoid κ) (combine : Nat → ν → ν → Except ε ν) (serial : Nat)
    (t : Table κ ν) (entries : List (κ × ν)) : κ → ν → Prop where
  | kept {k : κ} {v : ν} (hk : t.Has k v) (hnew : ∀ e ∈ entries, ¬same.r k e.1) :
      Blend same combine serial t entries k v
  | combined {k : κ} {v x : ν} {i : Nat} {e : κ × ν} (hk : t.Has k v) (he : entries[i]? = some e)
      (hs : same.r k e.1) (hx : combine (serial + i) v e.2 = .ok x) :
      Blend same combine serial t entries k x
  | added {e : κ × ν} (he : e ∈ entries) (hnew : t.Lacks same e.1) :
      Blend same combine serial t entries e.1 e.2

def Merged (same : Setoid κ) (combine : Nat → ν → ν → Except ε ν) (serial : Nat) (t : Table κ ν)
    (entries : List (κ × ν)) (t' : Table κ ν) : Prop :=
  ∀ k x, t'.Has k x ↔ Blend same combine serial t entries k x

def Distinct (same : Setoid κ) (entries : List (κ × ν)) : Prop :=
  entries.Pairwise fun e f => ¬same.r e.1 f.1

theorem Arranged.distinct_entries (h : t.Arranged rules same) : Distinct same t.entries := by
  have hnodup := h.nodup_classes
  rw [classes, List.Nodup, List.pairwise_map] at hnodup
  exact hnodup.imp fun hne hs => hne (Quotient.sound hs)

def second : Nat → ν → ν → Except ε ν := fun _ _ new => .ok new

def Combines (combine : Nat → ν → ν → Except ε ν) (n : Nat) (found : Option (κ × ν))
    (new value : ν) : Prop :=
  match found with
  | none => value = new
  | some (_, old) => combine n old new = .ok value

/-- Where entries meet values of a table, these can be combined. -/
def Combinable (same : Setoid κ) (combine : Nat → ν → ν → Except ε ν) (serial : Nat) (t : Table κ ν)
    (entries : List (κ × ν)) : Prop :=
  ∀ i e k v, entries[i]? = some e → t.Has k v → same.r k e.1 →
    ∃ x, combine (serial + i) v e.2 = .ok x

theorem combinable_of_total (htotal : ∀ n old new, ∃ x, combine n old new = .ok x) (serial : Nat)
    (t : Table κ ν) (entries : List (κ × ν)) : Combinable same combine serial t entries :=
  fun i e _ v _ _ _ => htotal (serial + i) v e.2

theorem Combinable.congr (h : Combinable same combine serial t entries)
    (hhas : ∀ k v, t'.Has k v ↔ t.Has k v) : Combinable same combine serial t' entries :=
  fun i e k v he hk => h i e k v he ((hhas k v).mp hk)

theorem Combinable.take (h : Combinable same combine serial t entries) (n : Nat) :
    Combinable same combine serial t (entries.take n) := by
  intro i e k v he
  rw [List.getElem?_take] at he
  split at he
  · exact h i e k v he
  · cases he

theorem combinable_nil (t : Table κ ν) : Combinable same combine serial t [] := by
  intro i e k v he
  simp at he

theorem Combinable.concat (h : Combinable same combine serial t entries) {last : κ × ν}
    (hlast : ∀ k v, t.Has k v → same.r k last.1 →
      ∃ x, combine (serial + entries.length) v last.2 = .ok x) :
    Combinable same combine serial t (entries ++ [last]) := by
  intro i e k v he hk hs
  rcases Nat.lt_trichotomy i entries.length with hi | rfl | hi
  · rw [List.getElem?_append_left hi] at he
    exact h i e k v he hk hs
  · obtain rfl : last = e := by simpa using he
    exact hlast k v hk hs
  · have hle : (entries ++ [last]).length ≤ i := by simpa using Nat.succ_le_of_lt hi
    rw [List.getElem?_eq_none hle] at he
    cases he

theorem merged_nil (t : Table κ ν) : Merged same combine serial t [] t := by
  intro k x
  constructor
  · intro hk
    exact .kept hk (by simp)
  · rintro (⟨hk, -⟩ | ⟨-, he, -, -⟩ | ⟨he, -⟩)
    · exact hk
    · simp at he
    · simp at he

private theorem Absorbs.blend_iff_of_same (h : Absorbs same entry.1 value found t u)
    (hvalue : Combines combine serial found entry.2 value) (ht : t.Arranged rules same)
    (hdistinct : ∀ e ∈ rest, ¬same.r entry.1 e.1) (hs : same.r entry.1 k) (x : ν) :
    Blend same combine (serial + 1) u rest k x ↔
      Blend same combine serial t (entry :: rest) k x := by
  have hfound := h.found_spec
  have hnone {l : κ} (hl : same.r entry.1 l) (e : κ × ν) (he : e ∈ rest) : ¬same.r l e.1 :=
    fun hle => hdistinct e he (same.trans hl hle)
  constructor
  · intro hblend
    cases hblend with
    | kept hk =>
        obtain ⟨hl, rfl⟩ := (h.has_iff_of_same hs).mp hk
        cases found with
        | none =>
            obtain rfl : x = entry.2 := hvalue
            obtain rfl : k = entry.1 := hl
            exact .added (by simp) hfound
        | some e =>
            obtain rfl : k = e.1 := hl
            exact .combined (i := 0) hfound.1 (by simp) (same.symm hs) hvalue
    | combined _ he hke => exact absurd hke (hnone hs _ (List.mem_of_getElem? he))
    | added he => exact absurd (same.refl _) (hnone hs _ he)
  · intro hblend
    have hkept (hk : u.Has k x) : Blend same combine (serial + 1) u rest k x :=
      .kept hk (hnone hs)
    cases hblend with
    | kept _ hnew => exact absurd (same.symm hs) (hnew entry (by simp))
    | @combined _ v _ i e hk he hke hx =>
        cases i with
        | zero =>
            obtain rfl : entry = e := by simpa using he
            cases found with
            | none =>
                obtain ⟨j, hj⟩ := hk
                exact absurd hs (hfound hj)
            | some f =>
                obtain ⟨rfl, rfl⟩ := ht.has_unique hk hfound.1 (same.trans hke hfound.2)
                obtain rfl : value = x := Except.ok.inj (hvalue.symm.trans hx)
                exact hkept ((h.has_iff_of_same hs).mpr ⟨rfl, rfl⟩)
        | succ i => exact absurd hke (hnone hs e (List.mem_of_getElem? (by simpa using he)))
    | @added e he hnew =>
        rcases List.mem_cons.mp he with rfl | he
        · cases found with
          | none =>
              obtain rfl : value = e.2 := hvalue
              exact hkept ((h.has_iff_of_same hs).mpr ⟨rfl, rfl⟩)
          | some f =>
              obtain ⟨j, hj⟩ := hfound.1
              exact absurd hfound.2 (hnew hj)
        · exact absurd (same.refl _) (hnone hs e he)

private theorem Absorbs.blend_iff_of_not_same (h : Absorbs same entry.1 value found t u)
    (hs : ¬same.r entry.1 k) (x : ν) :
    Blend same combine (serial + 1) u rest k x ↔
      Blend same combine serial t (entry :: rest) k x := by
  have hs' : ¬same.r k entry.1 := fun hk => hs (same.symm hk)
  have hhas (v : ν) : u.Has k v ↔ t.Has k v := h.has_iff_of_not_same hs
  have hnew : (∀ e ∈ entry :: rest, ¬same.r k e.1) ↔ ∀ e ∈ rest, ¬same.r k e.1 := by
    simp [hs']
  have hserial (i : Nat) : serial + 1 + i = serial + (i + 1) := by omega
  constructor
  · intro hblend
    cases hblend with
    | kept hk hn => exact .kept ((hhas _).mp hk) (hnew.mpr hn)
    | @combined _ v _ i e hk he hke hx =>
        rw [hserial] at hx
        exact .combined (i := i + 1) ((hhas _).mp hk) (by simpa using he) hke hx
    | added he hn => exact .added (List.mem_cons_of_mem _ he) ((h.lacks_iff_of_not_same hs).mp hn)
  · intro hblend
    cases hblend with
    | kept hk hn => exact .kept ((hhas _).mpr hk) (hnew.mp hn)
    | @combined _ v _ i e hk he hke hx =>
        cases i with
        | zero =>
            obtain rfl : entry = e := by simpa using he
            exact absurd hke hs'
        | succ i =>
            rw [← hserial] at hx
            exact .combined ((hhas _).mpr hk) (by simpa using he) hke hx
    | @added e he hn =>
        rcases List.mem_cons.mp he with rfl | he
        · exact absurd (same.refl _) hs
        · exact .added he ((h.lacks_iff_of_not_same hs).mpr hn)

theorem Merged.cons (h : Absorbs same entry.1 value found t u)
    (hvalue : Combines combine serial found entry.2 value) (ht : t.Arranged rules same)
    (hdistinct : Distinct same (entry :: rest))
    (hrest : Merged same combine (serial + 1) u rest t') :
    Merged same combine serial t (entry :: rest) t' := by
  intro k x
  rw [hrest k x]
  by_cases hs : same.r entry.1 k
  · exact h.blend_iff_of_same hvalue ht (List.pairwise_cons.mp hdistinct).1 hs x
  · exact h.blend_iff_of_not_same hs x

theorem Merged.has_iff_of_empty (h : Merged same combine serial t entries t')
    (hempty : ∀ k v, ¬t.Has k v) : t'.Has k x ↔ (k, x) ∈ entries := by
  rw [h k x]
  constructor
  · intro hblend
    cases hblend with
    | kept hk => exact absurd hk (hempty _ _)
    | combined hk => exact absurd hk (hempty _ _)
    | added he => exact he
  · intro he
    exact .added he fun i l w hl _ => hempty l w ⟨i, hl⟩

/-- Only the entries matter of the table that is merged into. -/
theorem Merged.congr (h : Merged same combine serial u entries t')
    (hhas : ∀ k v, u.Has k v ↔ t.Has k v) : Merged same combine serial t entries t' := by
  have hlacks (l : κ) : u.Lacks same l ↔ t.Lacks same l :=
    ⟨fun hl => hl.of_has fun k v => (hhas k v).mpr, fun hl => hl.of_has fun k v => (hhas k v).mp⟩
  intro k x
  rw [h k x]
  constructor
  · intro hblend
    cases hblend with
    | kept hk hnew => exact .kept ((hhas _ _).mp hk) hnew
    | combined hk he hs hx => exact .combined ((hhas _ _).mp hk) he hs hx
    | added he hnew => exact .added he ((hlacks _).mp hnew)
  · intro hblend
    cases hblend with
    | kept hk hnew => exact .kept ((hhas _ _).mpr hk) hnew
    | combined hk he hs hx => exact .combined ((hhas _ _).mpr hk) he hs hx
    | added he hnew => exact .added he ((hlacks _).mpr hnew)

theorem Merged.has_of_second (h : Merged same (ε := ε) second serial t u.entries t')
    (hx : t'.Has k x) : t.Has k x ∨ ∃ l, u.Has l x := by
  have hblend := (h k x).mp hx
  cases hblend with
  | kept hk => exact Or.inl hk
  | @combined _ _ _ _ e _ he _ hx =>
      obtain rfl : e.2 = x := Except.ok.inj hx
      exact Or.inr ⟨e.1, mem_entries.mp (List.mem_of_getElem? he)⟩
  | @added e he => exact Or.inr ⟨e.1, mem_entries.mp he⟩

theorem Arranged.coincides_of_has (h : t'.Arranged rules same)
    (hhas : ∀ k x, t.Has k x ↔ t'.Has k x) {differ : ν → ν → Bool}
    (hself : ∀ k x, t.Has k x → differ x x = false) : t.Coincides same differ t' where
  stores_iff key := by
    constructor
    · rintro ⟨i, k, x, hi, hs⟩
      obtain ⟨j, hj⟩ := (hhas k x).mp ⟨i, hi⟩
      exact ⟨j, k, x, hj, hs⟩
    · rintro ⟨i, k, x, hi, hs⟩
      obtain ⟨j, hj⟩ := (hhas k x).mpr ⟨i, hi⟩
      exact ⟨j, k, x, hj, hs⟩
  values {k l x y} hk hl hs := by
    obtain ⟨-, rfl⟩ := h.has_unique ((hhas k x).mp hk) hl hs
    exact hself k x hk

end Table

/-! ## Operations -/

namespace Op

open Table

variable [Inhabited κ] [Inhabited ν] {s : Journal κ ν} {k : κ} {v : ν} {entry : κ × ν}
  {entries : List (κ × ν)} {combine : Nat → ν → ν → Except ε ν} {serial : Nat}

theorem set_absorbs (hr : rules.Lawful same) (h : s.table.Sound rules same) (key : κ) (value : ν) :
    (set rules key value).Outcome s
      (fun _ s' => s'.table.Sound rules same ∧
        ∃ found, Absorbs same key value found s.table s'.table)
      (fun fault s' => rules.LacksRoom fault ∧ s'.table.Sound rules same) :=
  (set_outcome hr.toRespects h key value).imp (fun _ _ hs' => ⟨hs'.sound h, hs'.absorbs h⟩)
    fun _ _ hlost => ⟨hr.excuses hlost.excuses, hlost.sound h⟩

theorem update_updated (hr : rules.Lawful same) (h : s.table.Sound rules same)
    (entries : List (κ × ν)) :
    (update rules (entries.map .ok)).Outcome s
      (fun _ s' => s'.table.Sound rules same ∧ Updated same s.table entries s'.table)
      (fun fault s' => rules.LacksRoom fault ∧ s'.table.Sound rules same) := by
  induction entries generalizing s with
  | nil => exact ⟨h, updated_nil s.table⟩
  | cons entry rest ih =>
      rw [List.map_cons, update]
      apply (set_absorbs hr h entry.1 entry.2).bind _ fun _ _ hlost => hlost
      rintro _ s' ⟨hsound, found, habsorbs⟩
      apply (ih hsound).imp _ fun _ _ hlost => hlost
      exact fun _ s'' hs'' => ⟨hs''.1, Updated.cons habsorbs h.toArranged hs''.2⟩

/-- To set the entries of a list is to merge them in with the new values, if their classes are
distinct. -/
theorem update_merged (hr : rules.Lawful same) (h : s.table.Sound rules same)
    (hdistinct : Distinct same entries) (serial : Nat) :
    (update rules (entries.map .ok)).Outcome s
      (fun _ s' => s'.table.Sound rules same ∧
        Merged same (ε := ε) second serial s.table entries s'.table)
      (fun fault s' => rules.LacksRoom fault ∧ s'.table.Sound rules same) := by
  induction entries generalizing s serial with
  | nil => exact ⟨h, merged_nil s.table⟩
  | cons entry rest ih =>
      rw [List.map_cons, update]
      apply (set_absorbs hr h entry.1 entry.2).bind _ fun _ _ hlost => hlost
      rintro _ s' ⟨hsound, found, habsorbs⟩
      have hvalue : Combines (ε := ε) second serial found entry.2 entry.2 := by
        cases found <;> rfl
      apply (ih hsound (List.pairwise_cons.mp hdistinct).2 (serial + 1)).imp _ fun _ _ hl => hl
      exact fun _ s'' hs'' => ⟨hs''.1, .cons habsorbs hvalue h.toArranged hdistinct hs''.2⟩

theorem mergeWith_single_absorbs (hr : rules.Lawful same) (h : s.table.Sound rules same)
    (hcombine : Combinable same combine serial s.table [entry]) :
    (mergeWith rules combine serial [entry]).Outcome s
      (fun _ s' => s'.table.Sound rules same ∧ ∃ found value,
        Absorbs same entry.1 value found s.table s'.table ∧
          Combines combine serial found entry.2 value)
      (fun fault s' => rules.LacksRoom fault ∧ s'.table.Sound rules same) := by
  rw [mergeWith, outcome_bind, outcome_query]
  apply (h.toWellFormed.find?_found hr.toRespects entry.1).imp _
    fun _ href => absurd href hr.not_refuses
  intro found hfound
  cases found with
  | none =>
      apply (set_absorbs hr h entry.1 entry.2).bind _ fun _ _ hlost => hlost
      rintro _ s' ⟨hsound, found, habsorbs⟩
      have hnone : found = none := by
        cases found with
        | none => rfl
        | some e =>
            obtain ⟨⟨i, hi⟩, hs⟩ := habsorbs.found_spec
            exact absurd hs (hfound hi)
      subst hnone
      exact ⟨hsound, none, entry.2, habsorbs, rfl⟩
  | some i =>
      obtain ⟨k, v, hk, hs⟩ := hfound
      obtain ⟨x, hx⟩ : ∃ x, combine serial v entry.2 = .ok x :=
        hcombine 0 entry k v rfl ⟨i, hk⟩ (same.symm hs)
      have hi : i < s.table.vals.size := by
        rw [h.vals_size]
        exact hk.lt
      have hassigned : Assigned rules same entry.1 x s.table (s.table.revalued i x) :=
        .replaced hk hs
      obtain ⟨found, habsorbs⟩ := hassigned.absorbs h
      have hvalue : Combines combine serial found entry.2 x := by
        cases found with
        | none => exact absurd hs (habsorbs.found_spec hk)
        | some e =>
            have hhas := habsorbs.found_spec
            obtain ⟨rfl, rfl⟩ := h.has_unique ⟨i, hk⟩ hhas.1 (same.trans (same.symm hs) hhas.2)
            exact hx
      dsimp only
      rw [outcome_bind, outcome_query_ok (val_eq hk.val), outcome_bind,
        outcome_query_ok (a := x) (by rw [hx]; rfl), outcome_bind, outcome_putVal hi, outcome_bind,
        outcome_edit]
      exact ⟨hassigned.sound h, found, x, habsorbs, hvalue⟩

theorem mergeWith_merged (hr : rules.Lawful same) (h : s.table.Sound rules same)
    (hdistinct : Distinct same entries)
    (hcombine : Combinable same combine serial s.table entries) :
    (mergeWith rules combine serial entries).Outcome s
      (fun _ s' => s'.table.Sound rules same ∧
        Merged same combine serial s.table entries s'.table)
      (fun fault s' => rules.LacksRoom fault ∧ s'.table.Sound rules same) := by
  induction entries generalizing s serial with
  | nil => exact ⟨h, merged_nil s.table⟩
  | cons entry rest ih =>
      rw [← List.singleton_append, mergeWith_append]
      have hhead : Combinable same combine serial s.table [entry] := hcombine.take 1
      apply (mergeWith_single_absorbs hr h hhead).bind _ fun _ _ hlost => hlost
      rintro _ s' ⟨hsound, found, value, habsorbs, hvalue⟩
      have hrest := List.pairwise_cons.mp hdistinct
      -- The entries that are left meet values that the first one has not touched.
      have hlater : Combinable same combine (serial + 1) s'.table rest := by
        intro i e k v he hk hs
        have hne : ¬same.r entry.1 k := fun hkey =>
          hrest.1 e (List.mem_of_getElem? he) (same.trans hkey hs)
        have hserial : serial + 1 + i = serial + (i + 1) := by omega
        rw [hserial]
        exact hcombine (i + 1) e k v he ((habsorbs.has_iff_of_not_same hne).mp hk) hs
      apply (ih hsound hrest.2 hlater).imp _ fun _ _ hlost => hlost
      exact fun _ s'' hs'' => ⟨hs''.1, .cons habsorbs hvalue h.toArranged hdistinct hs''.2⟩

/-- A combination that is refused stops a merge before anything of its entry is stored. -/
theorem mergeWith_refused (hr : rules.Lawful same) (h : s.table.Sound rules same)
    (hk : s.table.Has k v) (hs : same.r k entry.1) {cause : ε}
    (hx : combine serial v entry.2 = .error cause) (rest : List (κ × ν)) :
    mergeWith rules combine serial (entry :: rest) s = .error (.refused cause) s := by
  obtain ⟨found, hfind, hfound⟩ := (h.toWellFormed.find?_found hr.toRespects entry.1).exists_ok
    fun _ => hr.not_refuses
  obtain ⟨j, hj⟩ := hk
  cases found with
  | none => exact absurd (same.symm hs) (hfound hj)
  | some i =>
      obtain ⟨l, w, hl, hsl⟩ := hfound
      obtain ⟨rfl, rfl⟩ := h.has_unique ⟨j, hj⟩ ⟨i, hl⟩ (same.trans hs hsl)
      have hval : (s.table.val i : Except (Fault κ ε) ν) = .ok v := val_eq hl.val
      simp only [mergeWith, bind_run, query_run, hfind, hval, hx]
      rfl

end Op

end OpenAddressing
