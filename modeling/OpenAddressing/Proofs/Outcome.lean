import OpenAddressing.Table.Basic

/-!
# Outcomes of operations

What can be said of an operation is said of both ways in which it can end. The equations
below push such a statement through the parts of an operation, from the first to the last.
-/

namespace OpenAddressing

variable {κ ν ε α β : Type}

/-- A result is an answer with `post`, or a fault with `lost`. -/
def Gives (result : Except (Fault κ ε) α) (post : α → Prop) (lost : Fault κ ε → Prop) : Prop :=
  match result with
  | .ok a => post a
  | .error fault => lost fault

section Results

variable {post : α → Prop} {lost : Fault κ ε → Prop}

@[simp]
theorem gives_ok (a : α) : Gives (.ok a) post lost ↔ post a := Iff.rfl

@[simp]
theorem gives_error (fault : Fault κ ε) :
    Gives (.error fault : Except _ α) post lost ↔ lost fault :=
  Iff.rfl

@[simp]
theorem gives_bind (x : Except (Fault κ ε) β) (f : β → Except (Fault κ ε) α) :
    Gives (x >>= f) post lost ↔ Gives x (fun b => Gives (f b) post lost) lost := by
  cases x <;> rfl

theorem Gives.imp {result : Except (Fault κ ε) α} {post' : α → Prop} {lost' : Fault κ ε → Prop}
    (h : Gives result post lost) (hpost : ∀ a, post a → post' a)
    (hlost : ∀ fault, lost fault → lost' fault) : Gives result post' lost' := by
  cases result with
  | ok a => exact hpost a h
  | error fault => exact hlost fault h

theorem Gives.exists_ok {result : Except (Fault κ ε) α} (h : Gives result post lost)
    (hlost : ∀ fault, ¬lost fault) : ∃ a, result = .ok a ∧ post a := by
  cases result with
  | ok a => exact ⟨a, rfl, h⟩
  | error fault => exact absurd h (hlost fault)

theorem gives_bind_of_forall {x : Except (Fault κ ε) β} {f : β → Except (Fault κ ε) α}
    (h : ∀ b, Gives (f b) post fun _ => True) : Gives (x >>= f) post fun _ => True := by
  cases x with
  | ok b => exact h b
  | error fault => trivial

end Results

namespace Op

/-- Begun in `s`, the operation answers in a state with `post`, or it stops at a fault in a
state with `lost`. -/
def Outcome (op : Op κ ν ε α) (s : Journal κ ν) (post : α → Journal κ ν → Prop)
    (lost : Fault κ ε → Journal κ ν → Prop) : Prop :=
  match op s with
  | .ok a s' => post a s'
  | .error fault s' => lost fault s'

variable {s : Journal κ ν} {post : α → Journal κ ν → Prop} {lost : Fault κ ε → Journal κ ν → Prop}

theorem Outcome.imp {op : Op κ ν ε α} {post' : α → Journal κ ν → Prop}
    {lost' : Fault κ ε → Journal κ ν → Prop} (h : op.Outcome s post lost)
    (hpost : ∀ a s', post a s' → post' a s')
    (hlost : ∀ fault s', lost fault s' → lost' fault s') : op.Outcome s post' lost' := by
  unfold Outcome at h ⊢
  cases hop : op s with
  | ok a s' =>
      rw [hop] at h
      exact hpost a s' h
  | error fault s' =>
      rw [hop] at h
      exact hlost fault s' h

theorem Outcome.exists_ok {op : Op κ ν ε α} (h : op.Outcome s post lost)
    (hlost : ∀ fault s', ¬lost fault s') : ∃ a s', op s = .ok a s' ∧ post a s' := by
  unfold Outcome at h
  cases hop : op s with
  | ok a s' =>
      rw [hop] at h
      exact ⟨a, s', rfl, h⟩
  | error fault s' =>
      rw [hop] at h
      exact absurd h (hlost fault s')

theorem Outcome.and {op : Op κ ν ε α} {post' : α → Journal κ ν → Prop}
    {lost' : Fault κ ε → Journal κ ν → Prop} (h : op.Outcome s post lost)
    (h' : op.Outcome s post' lost') :
    op.Outcome s (fun a s' => post a s' ∧ post' a s')
      (fun fault s' => lost fault s' ∧ lost' fault s') := by
  unfold Outcome at h h' ⊢
  cases hop : op s with
  | ok a s' =>
      rw [hop] at h h'
      exact ⟨h, h'⟩
  | error fault s' =>
      rw [hop] at h h'
      exact ⟨h, h'⟩

theorem outcome_of_imp {op : Op κ ν ε α} {p : Prop} (h : p → op.Outcome s post lost) :
    op.Outcome s (fun a s' => p → post a s') (fun fault s' => p → lost fault s') := by
  unfold Outcome at h ⊢
  cases hop : op s with
  | ok a s' => simpa only [hop] using h
  | error fault s' => simpa only [hop] using h

@[simp]
theorem outcome_throw (fault : Fault κ ε) :
    (throw fault : Op κ ν ε α).Outcome s post lost ↔ lost fault s := Iff.rfl

@[simp]
theorem outcome_bind (x : Op κ ν ε β) (f : β → Op κ ν ε α) :
    (x >>= f).Outcome s post lost ↔ x.Outcome s (fun b s' => (f b).Outcome s' post lost) lost := by
  unfold Outcome
  rw [bind_run]
  cases x s <;> rfl

theorem Outcome.bind {x : Op κ ν ε β} {f : β → Op κ ν ε α} {post' : β → Journal κ ν → Prop}
    {lost' : Fault κ ε → Journal κ ν → Prop} (hx : x.Outcome s post' lost')
    (hpost : ∀ b s', post' b s' → (f b).Outcome s' post lost)
    (hlost : ∀ fault s', lost' fault s' → lost fault s') : (x >>= f).Outcome s post lost :=
  (outcome_bind x f).mpr (hx.imp hpost hlost)

theorem outcome_query {f : Table κ ν → Except (Fault κ ε) α} :
    (query f).Outcome s post lost ↔
      Gives (f s.table) (fun a => post a s) (fun fault => lost fault s) := by
  unfold Outcome Gives
  rw [query_run]
  cases f s.table <;> rfl

theorem outcome_query_ok {f : Table κ ν → Except (Fault κ ε) α} {a : α} (h : f s.table = .ok a) :
    (query f).Outcome s post lost ↔ post a s := by
  rw [outcome_query, h, gives_ok]

@[simp]
theorem outcome_query_total {f : Table κ ν → α} :
    (query fun t => .ok (f t) : Op κ ν ε α).Outcome s post lost ↔ post (f s.table) s := Iff.rfl

theorem query_frame (f : Table κ ν → Except (Fault κ ε) α) (g : α → β) :
    (do return g (← query f) : Op κ ν ε β).Outcome s (fun _ s' => s' = s) (fun _ s' => s' = s) := by
  rw [outcome_bind, outcome_query]
  cases f s.table with
  | ok a => rfl
  | error fault => rfl

@[simp]
theorem outcome_edit {f : Table κ ν → Table κ ν} {post : Unit → Journal κ ν → Prop} :
    (edit f : Op κ ν ε Unit).Outcome s post lost ↔ post () { s with table := f s.table } := Iff.rfl

@[simp]
theorem outcome_report {event : Event κ} {post : Unit → Journal κ ν → Prop} :
    (report event : Op κ ν ε Unit).Outcome s post lost ↔
      post () { s with events := s.events.push event } := Iff.rfl

theorem cell_natCast {size i : Nat} (h : i < size) (fault : Fault κ ε) :
    cell size (i : Int) fault = .ok i := by
  rw [cell, cell?_natCast, if_pos h]

theorem tag_natCast {t : Table κ ν} {i : Nat} (hi : i < t.capacity) :
    (t.tag i : Except (Fault κ ε) Tag) = .ok (t.tagAt i) := by
  rw [Table.tag, cell_natCast hi]
  rfl

theorem outcome_putTag {post : Unit → Journal κ ν → Prop} {i : Nat} {tag : Tag}
    (h : i < s.table.capacity) :
    (putTag i tag.code : Op κ ν ε Unit).Outcome s post lost ↔
      post () { s with table :=
        { s.table with tags := s.table.tags.setIfInBounds i tag } } := by
  rw [putTag, outcome_bind, outcome_query_ok (a := tag) (by simp), outcome_bind,
    outcome_query_ok (cell_natCast h _), outcome_edit]

theorem outcome_putKey {post : Unit → Journal κ ν → Prop} {i : Nat} {key : κ}
    (h : i < s.table.keys.size) :
    (putKey i key : Op κ ν ε Unit).Outcome s post lost ↔
      post () { s with table :=
        { s.table with keys := s.table.keys.setIfInBounds i key } } := by
  rw [putKey, outcome_bind, outcome_query_ok (cell_natCast h _), outcome_edit]

theorem outcome_putVal {post : Unit → Journal κ ν → Prop} {i : Nat} {value : ν}
    (h : i < s.table.vals.size) :
    (putVal i value : Op κ ν ε Unit).Outcome s post lost ↔
      post () { s with table :=
        { s.table with vals := s.table.vals.setIfInBounds i value } } := by
  rw [putVal, outcome_bind, outcome_query_ok (cell_natCast h _), outcome_edit]

end Op

end OpenAddressing
