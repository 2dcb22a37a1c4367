import OpenAddressing.Proofs.Invariant

/-!
# Visits of a table that changes

A visit may be under way while the table is looked at, visited by others and deleted from, and
while keys that are there get other values. None of this moves an entry or adds a key, so what
the visit has passed stays passed and what lies ahead stays ahead.
-/

namespace OpenAddressing

variable {κ ν ε : Type} {rules : Rules κ ε} {same : Setoid κ}

structure Tour (κ ν : Type) where
  journal : Journal κ ν
  cursor : Cursor

inductive Turn (κ ν ε : Type) where
  | next
  | ask (request : TableRequest κ ν ε)

structure Sighting (κ ν : Type) where
  table : Table κ ν
  index : Nat
  key : κ

def Cursor.sighting? (t : Table κ ν) : Option κ × Cursor → Option (Sighting κ ν)
  | (some key, .paused resume) => some ⟨t, (resume - 1).toNat, key⟩
  | _ => none

instance (cursor : Cursor) : Decidable (cursor = .finished) :=
  match cursor with
  | .fresh => isFalse nofun
  | .paused _ => isFalse nofun
  | .finished => isTrue rfl

def Turn.isNext : Turn κ ν ε → Bool
  | .next => true
  | .ask _ => false

def Turn.seen? : Except (Fault κ ε) (Option (Sighting κ ν)) → Option (Sighting κ ν)
  | .ok found => found
  | .error _ => none

/-- The request neither adds keys nor moves entries. -/
def TableRequest.Gentle (same : Setoid κ) (t : Table κ ν) : TableRequest κ ν ε → Prop
  | .map (.set key _) => ∃ i, t.Stores same key i
  | .map .clear | .map .free | .map (.rehash _) | .map (.update _) | .map (.updateFrom _)
  | .plan _ | .copy | .merge _ _ _ => False
  | _ => True

def Turn.Gentle (same : Setoid κ) (t : Table κ ν) : Turn κ ν ε → Prop
  | .next => True
  | .ask request => request.Gentle same t

section Turns

variable [Inhabited κ] [Inhabited ν]

/-- Takes a turn. A visit that stops at a fault is finished, and the answers to requests are
for others. -/
def Turn.onTour (rules : Rules κ ε) :
    Turn κ ν ε → Tour κ ν → Except (Fault κ ε) (Option (Sighting κ ν)) × Tour κ ν
  | .next, tour =>
    match (tour.cursor.advance : Op κ ν ε (Option κ × Cursor)).carry tour.journal with
    | (.ok reply, s) => (.ok (Cursor.sighting? s.table reply), ⟨s, reply.2⟩)
    | (.error fault, s) => (.error fault, ⟨s, .finished⟩)
  | .ask request, tour => (.ok none, ⟨(request.onTable rules tour.journal).2, tour.cursor⟩)

def Undisturbed (rules : Rules κ ε) (same : Setoid κ) : List (Turn κ ν ε) → Tour κ ν → Prop
  | [], _ => True
  | turn :: rest, tour =>
    turn.Gentle same tour.journal.table ∧ Undisturbed rules same rest (turn.onTour rules tour).2

end Turns

/-! ## Requests between the steps -/

section Requests

open Table Op

variable [Inhabited κ] [Inhabited ν] {s : Journal κ ν}

omit [Inhabited κ] [Inhabited ν] in
private theorem query_settled {α : Type} (f : Table κ ν → Except (Fault κ ε) α)
    (answer : α → MapAnswer κ ν) :
    (do return answer (← query f) : Op κ ν ε (MapAnswer κ ν)).Outcome s
      (fun _ s' => Settled s.table s'.table) (fun _ s' => Settled s.table s'.table) :=
  (query_frame f answer).imp (fun _ _ hs' => settled_of_eq (by rw [hs']))
    (fun _ _ hs' => settled_of_eq (by rw [hs']))

theorem MapRequest.perform_settled (hr : rules.Respects same) (h : s.table.Sound rules same)
    (request : MapRequest κ ν ε) (hgentle : (TableRequest.map request).Gentle same s.table) :
    (request.perform rules).Outcome s (fun _ s' => Settled s.table s'.table)
      (fun _ s' => Settled s.table s'.table) := by
  cases request with
  | set key value =>
      obtain ⟨i, hi⟩ := hgentle
      exact (set_outcome hr h key value).bind (fun _ _ hs' => hs'.settled h hi)
        (fun _ _ hl => hl.settled hi)
  | get key default => exact query_settled _ _
  | getKey key default => exact query_settled _ _
  | lookup key => exact query_settled _ _
  | contains key => exact query_settled _ _
  | delete key =>
      exact (delete_outcome hr h key).bind (fun _ _ ⟨_, he, _⟩ => he.settled h)
        (fun _ _ hl => settled_of_eq hl.2)
  | remove key =>
      exact (remove_outcome hr h key).bind (fun _ _ ⟨_, he⟩ => he.settled h)
        (fun _ _ hl => settled_of_eq hl.2)
  | pop key default =>
      cases default with
      | none =>
          exact (pop_outcome hr h key).bind (fun _ _ ⟨_, he⟩ => he.settled h)
            (fun _ _ hl => settled_of_eq hl.2)
      | some default =>
          exact (pop?_outcome hr h key).bind (fun _ _ ⟨_, he, _⟩ => he.settled h)
            (fun _ _ hl => settled_of_eq hl.2)
  | length => exact query_settled _ _
  | isEmpty => exact query_settled _ _
  | items =>
      exact (items_outcome h).bind (fun _ _ hs' => hs'.2.sameSlots.settled) (fun _ _ hl => hl.elim)
  | _ => exact hgentle.elim

theorem TableRequest.perform_settled (hr : rules.Respects same) (h : s.table.Sound rules same)
    (request : TableRequest κ ν ε) (hgentle : request.Gentle same s.table) :
    (request.perform rules).Outcome s (fun _ s' => Settled s.table s'.table)
      (fun _ s' => Settled s.table s'.table) := by
  cases request with
  | map request =>
      exact (request.perform_settled hr h hgentle).bind (fun _ _ hs' => hs') fun _ _ hl => hl
  | deleteAt i =>
      cases hf : (s.table.tagAt i).isFilled with
      | true =>
          exact (deleteAt_outcome h.fitted hf).imp
            (fun _ _ hs' => hs'.settled h (lt_of_isFilled hf)) fun _ _ hl => hl.elim
      | false =>
          exact (deleteAt_outcome_of_not_filled hf).imp (fun _ _ hl => hl.elim)
            fun _ _ hs' => settled_of_eq (by rw [hs'])
  | filledFromFloor =>
      exact (filledFromFloor?_outcome h).bind (fun _ _ hs' => hs'.2.sameSlots.settled)
        (fun _ _ hl => hl.elim)
  | iterate start =>
      cases start with
      | none =>
          exact (iterate_none_outcome h).bind (fun _ _ hs' => hs'.2.sameSlots.settled)
            (fun _ _ hl => hl.elim)
      | some i =>
          exact (iterate_some_outcome h i).bind (fun _ _ hs' => settled_of_eq (by rw [hs']))
            (fun _ _ hl => settled_of_eq (by rw [hl.2.2]))
  | _ => exact hgentle.elim

theorem TableRequest.onTable_settled (hr : rules.Respects same) (h : s.table.Sound rules same)
    (request : TableRequest κ ν ε) (hgentle : request.Gentle same s.table) :
    Settled s.table (request.onTable rules s).2.table := by
  rcases (request.perform_settled hr h hgentle).carry with ⟨_, -, hs'⟩ | ⟨_, -, hs'⟩
  · exact hs'
  · exact hs'

end Requests

/-! ## Steps of the visit -/

section Accounts

open Table

/-- What a visit gives from slot `i` on while turns are taken. -/
structure Account (same : Setoid κ) (i : Nat) (tour : Tour κ ν) (nexts : Nat)
    (answers : List (Except (Fault κ ε) (Option (Sighting κ ν)))) (last : Tour κ ν) : Prop where
  settled : Settled tour.journal.table last.journal.table
  ok : ∀ answer ∈ answers, ∃ found, answer = .ok found
  live : ∀ x ∈ answers.filterMap Turn.seen?, i ≤ x.index ∧
    (∃ v, x.table.Holds x.index x.key v) ∧ ∃ v, tour.journal.table.Holds x.index x.key v
  ordered : (answers.filterMap Turn.seen?).Pairwise fun x y =>
    x.index < y.index ∧ ¬same.r x.key y.key
  complete : last.cursor = .finished → ∀ j k v, i ≤ j → last.journal.table.Holds j k v →
    ∃ x ∈ answers.filterMap Turn.seen?, x.key = k
  short : last.cursor = .finished ∨ i + nexts ≤ tour.journal.table.capacity

namespace Account

variable {tour last : Tour κ ν} {i nexts m : Nat} {s : Journal κ ν} {k : κ} {v : ν}
variable {answers : List (Except (Fault κ ε) (Option (Sighting κ ν)))}

theorem nil (hat : tour.cursor.At i) (hi : i ≤ tour.journal.table.capacity) :
    Account (ε := ε) same i tour 0 [] tour where
  settled := settled_of_eq rfl
  ok := by simp
  live := by simp
  ordered := List.Pairwise.nil
  complete hfinished := by
    rw [hfinished] at hat
    exact hat.elim
  short := Or.inr hi

theorem ask (hs : Settled tour.journal.table s.table)
    (h : Account same i ⟨s, tour.cursor⟩ nexts answers last) :
    Account same i tour nexts (.ok none :: answers) last where
  settled := hs.trans h.settled
  ok := by simpa using h.ok
  live x hx := by
    obtain ⟨hi, hlive, v, hv⟩ := h.live x hx
    exact ⟨hi, hlive, hs.holds hv⟩
  ordered := h.ordered
  complete := h.complete
  short := hs.capacity_eq ▸ h.short

theorem seen (hs : s.table.Sound rules same) (hfloor : Refloored tour.journal.table s.table)
    (hm : i ≤ m) (hk : s.table.Holds m k v)
    (hbelow : ∀ x, i ≤ x → x < m → (s.table.tagAt x).isFilled = false)
    (h : Account same (m + 1) ⟨s, .paused (m + 1 : Nat)⟩ nexts answers last) :
    Account same i tour (nexts + 1) (.ok (some ⟨s.table, m, k⟩) :: answers) last where
  settled := hfloor.sameSlots.settled.trans h.settled
  ok := by simpa using h.ok
  live := by
    intro x hx
    rcases List.mem_cons.mp hx with rfl | hx
    · exact ⟨hm, ⟨v, hk⟩, v, hfloor.sameSlots.holds_iff.mp hk⟩
    · obtain ⟨hi, hlive, w, hw⟩ := h.live x hx
      exact ⟨by omega, hlive, w, hfloor.sameSlots.holds_iff.mp hw⟩
  ordered := by
    refine List.pairwise_cons.mpr ⟨fun x hx => ?_, h.ordered⟩
    obtain ⟨hi, -, w, hw⟩ := h.live x hx
    refine ⟨hi, fun hsame => ?_⟩
    -- Both keys are in the table at the moment of the first, in slots of their own.
    have hslot := hs.distinct hk hw hsame
    omega
  complete := by
    intro hfinished j l w hj hl
    by_cases hjm : m + 1 ≤ j
    · obtain ⟨x, hx, hkey⟩ := h.complete hfinished j l w hjm hl
      exact ⟨x, List.mem_cons_of_mem _ hx, hkey⟩
    obtain ⟨w', hl'⟩ := h.settled.holds hl
    by_cases hlt : j < m
    · exact absurd hl' (not_holds_of_free (hbelow j hj hlt))
    · obtain rfl : j = m := by omega
      exact ⟨_, List.mem_cons_self, (hk.unique hl').1⟩
  short := by
    refine h.short.imp_right fun hle => ?_
    rw [← hfloor.sameSlots.capacity_eq]
    exact Nat.le_trans (by omega) hle

theorem ended (hfloor : Refloored tour.journal.table s.table)
    (hnone : ∀ x, i ≤ x → (s.table.tagAt x).isFilled = false)
    (hlast : Settled s.table last.journal.table) (hcursor : last.cursor = .finished)
    (hanswers : ∀ answer ∈ answers, answer = .ok none) (nexts : Nat) :
    Account same i tour nexts answers last := by
  have hnothing : answers.filterMap Turn.seen? = [] := by
    rw [List.filterMap_eq_nil_iff]
    intro answer hmem
    rw [hanswers answer hmem]
    rfl
  refine ⟨hfloor.sameSlots.settled.trans hlast, fun answer hmem => ⟨none, hanswers answer hmem⟩,
    by simp [hnothing], by simp [hnothing], ?_, Or.inl hcursor⟩
  intro _ j k v hj hk
  obtain ⟨_, hk'⟩ := hlast.holds hk
  exact absurd hk' (not_holds_of_free (hnone j hj))

end Account

private theorem existsUnique_sighting {seen : List (Sighting κ ν)} {x : Sighting κ ν} {key : κ}
    (hdistinct : seen.Pairwise fun x y => ¬same.r x.key y.key) (hx : x ∈ seen)
    (hkey : same.r key x.key) : ∃! n : Nat, ∃ y, seen[n]? = some y ∧ same.r key y.key := by
  obtain ⟨n, hn, rfl⟩ := List.getElem_of_mem hx
  refine ⟨n, ⟨_, List.getElem?_eq_getElem hn, hkey⟩, ?_⟩
  rintro m ⟨y, hy, hsame⟩
  obtain ⟨hm, rfl⟩ := List.getElem?_eq_some_iff.mp hy
  rw [List.pairwise_iff_getElem] at hdistinct
  rcases Nat.lt_trichotomy m n with hlt | heq | hlt
  · exact absurd (same.trans (same.symm hsame) hkey) (hdistinct m n hm hn hlt)
  · exact heq
  · exact absurd (same.trans (same.symm hkey) hsame) (hdistinct n m hn hm hlt)

end Accounts

section Tours

open Table Op

variable [Inhabited κ] [Inhabited ν] {tour : Tour κ ν} {i : Nat}

theorem Turn.onTour_next (h : tour.journal.table.Sound rules same) (hat : tour.cursor.At i) :
    ∃ s, Refloored tour.journal.table s.table ∧
      ((∀ x, i ≤ x → (s.table.tagAt x).isFilled = false) ∧
        (Turn.next : Turn κ ν ε).onTour rules tour = (.ok none, ⟨s, .finished⟩) ∨
      ∃ m k v, i ≤ m ∧ s.table.Holds m k v ∧
        (∀ x, i ≤ x → x < m → (s.table.tagAt x).isFilled = false) ∧
        (Turn.next : Turn κ ν ε).onTour rules tour =
          (.ok (some ⟨s.table, m, k⟩), ⟨s, .paused (m + 1 : Nat)⟩)) := by
  obtain ⟨reply, s, heq, hs, step, hnext, rfl⟩ :=
    (Cursor.advance_outcome (ε := ε) h hat).exists_ok fun _ _ hl => hl
  have hcarry : (tour.cursor.advance : Op κ ν ε (Option κ × Cursor)).carry tour.journal =
      (.ok (Cursor.ofStep step), s) := by rw [carry, heq]
  refine ⟨s, hs, ?_⟩
  rw [onTour, hcarry]
  cases step with
  | none => exact Or.inl ⟨hnext, rfl⟩
  | some step =>
      obtain ⟨m, hresume, hm, hholds, hbelow⟩ := hnext
      refine Or.inr ⟨m, step.key, step.value, hm, hholds, hbelow, ?_⟩
      simp [Cursor.ofStep, Cursor.sighting?, hresume]

theorem runAll_finished (hr : rules.Respects same) (turns : List (Turn κ ν ε))
    (h : tour.journal.table.Sound rules same) (hcursor : tour.cursor = .finished)
    (hgentle : Undisturbed rules same turns tour) :
    Settled tour.journal.table (runAll (Turn.onTour rules) turns tour).2.journal.table ∧
      (runAll (Turn.onTour rules) turns tour).2.cursor = .finished ∧
      ∀ answer ∈ (runAll (Turn.onTour rules) turns tour).1, answer = .ok none := by
  induction turns generalizing tour with
  | nil => exact ⟨settled_of_eq rfl, hcursor, by simp [runAll]⟩
  | cons turn rest ih =>
      obtain ⟨hturn, hrest⟩ := hgentle
      rw [runAll_cons]
      cases turn with
      | next =>
          have hstay : (Turn.next : Turn κ ν ε).onTour rules tour = (.ok none, tour) := by
            obtain ⟨s, cursor⟩ := tour
            obtain rfl : cursor = .finished := hcursor
            rfl
          rw [hstay] at hrest ⊢
          simpa using ih h hcursor hrest
      | ask request =>
          have hsettled := request.onTable_settled hr h hturn
          have hsound : ((Turn.ask request).onTour rules tour).2.journal.table.Sound rules same :=
            (request.onTable_halts hr h).1.sound h
          obtain ⟨hsettled', hcursor', hanswers⟩ := ih hsound hcursor hrest
          refine ⟨hsettled.trans hsettled', hcursor', ?_⟩
          simpa [Turn.onTour] using hanswers

theorem account_of_turns (hr : rules.Respects same) (turns : List (Turn κ ν ε))
    (h : tour.journal.table.Sound rules same) (hat : tour.cursor.At i)
    (hi : i ≤ tour.journal.table.capacity) (hgentle : Undisturbed rules same turns tour) :
    Account same i tour (turns.countP Turn.isNext) (runAll (Turn.onTour rules) turns tour).1
      (runAll (Turn.onTour rules) turns tour).2 := by
  induction turns generalizing tour i with
  | nil => exact .nil hat hi
  | cons turn rest ih =>
      obtain ⟨hturn, hrest⟩ := hgentle
      rw [runAll_cons]
      cases turn with
      | next =>
          obtain ⟨s, hfloor, ⟨hnone, heq⟩ | ⟨m, k, v, hm, hk, hbelow, heq⟩⟩ :=
            Turn.onTour_next (ε := ε) h hat
          · rw [heq] at hrest ⊢
            obtain ⟨hlast, hcursor, hanswers⟩ := runAll_finished hr rest (hfloor.sound h) rfl hrest
            exact .ended hfloor hnone hlast hcursor (by simpa using hanswers) _
          · have hcount : (Turn.next :: rest).countP Turn.isNext = rest.countP Turn.isNext + 1 :=
              List.countP_cons_of_pos rfl
            have hlt : m < s.table.capacity := hk.lt
            rw [heq] at hrest ⊢
            rw [hcount]
            exact .seen (hfloor.sound h) hfloor hm hk hbelow
              (ih (hfloor.sound h) rfl hlt hrest)
      | ask request =>
          -- What the visit has not seen yet stays in its slot, or is deleted.
          have hsettled := request.onTable_settled hr h hturn
          have hsound := (request.onTable_halts hr h).1.sound h
          refine .ask hsettled (ih hsound hat ?_ hrest)
          exact hsettled.capacity_eq ▸ hi

theorem Undisturbed.of_append {before after : List (Turn κ ν ε)}
    (h : Undisturbed rules same (before ++ after) tour) : Undisturbed rules same before tour := by
  induction before generalizing tour with
  | nil => trivial
  | cons turn rest ih => exact ⟨h.1, ih h.2⟩

/-- A visit of any reachable table, with deletions, new values for keys that are there, lookups
and other visits between its steps: no step fails; each gives a key that is in the table at that
moment, in a later slot than the keys before it and different from them all; at the end, each
key that is still there has been given exactly once; and the end has come once there were more
steps than slots. -/
theorem visit_survives_deletions (hr : rules.Respects same) (hint : Int)
    (requests : List (TableRequest κ ν ε)) (turns : List (Turn κ ν ε))
    (hgentle : Undisturbed rules same turns ⟨reached rules hint requests, .fresh⟩) :
    let start : Tour κ ν := ⟨reached rules hint requests, .fresh⟩
    let run := runAll (Turn.onTour rules) turns start
    let seen := run.1.filterMap Turn.seen?
    (∀ answer ∈ run.1, ∃ found, answer = .ok found) ∧
    (∀ x ∈ seen, ∃ v, x.table.Holds x.index x.key v) ∧
    seen.Pairwise (fun x y => x.index < y.index ∧ ¬same.r x.key y.key) ∧
    (∀ before after, turns = before ++ after →
      let stop := (runAll (Turn.onTour rules) before start).2
      stop.cursor = .finished → ∀ key, (∃ i, stop.journal.table.Stores same key i) →
        ∃! n : Nat, ∃ x, seen[n]? = some x ∧ same.r key x.key) ∧
    (start.journal.table.capacity < turns.countP Turn.isNext → run.2.cursor = .finished) := by
  intro start run seen
  have hsound : start.journal.table.Sound rules same :=
    sound_reached_of_respects hr hint requests
  have haccount := account_of_turns hr turns hsound (i := 0) rfl (Nat.zero_le _) hgentle
  refine ⟨haccount.ok, fun x hx => (haccount.live x hx).2.1, haccount.ordered, ?_, ?_⟩
  · rintro before after rfl stop hstop key ⟨j, k, v, hk, hs⟩
    have hpart := account_of_turns hr before hsound (i := 0) rfl (Nat.zero_le _) hgentle.of_append
    obtain ⟨x, hx, rfl⟩ := hpart.complete hstop j k v (Nat.zero_le j) hk
    refine existsUnique_sighting (haccount.ordered.imp fun h => h.2) (x := x) ?_ hs
    change x ∈ (runAll (Turn.onTour rules) (before ++ after) start).1.filterMap Turn.seen?
    rw [runAll_append, List.filterMap_append]
    exact List.mem_append_left _ hx
  · intro hnexts
    refine haccount.short.resolve_right fun hle => ?_
    rw [Nat.zero_add] at hle
    exact absurd hnexts (Nat.not_lt.mpr hle)

end Tours

/-- Five keys on four paths. The key just given is deleted, and so is one that lies ahead; a
third gets another value under another name, and a second visit runs to its end. -/
theorem visit_survives_deletions_digits :
    let rules : Rules Nat Empty := .through (· % 100) (fun n => (n % 4 : Nat)) 64000 none
    let requests : List (TableRequest Nat Nat Empty) :=
      [.map (.set 3 30), .map (.set 7 70), .map (.set 6 60), .map (.set 1 10), .map (.set 5 50)]
    let turns : List (Turn Nat Nat Empty) :=
      [.next, .ask (.map (.delete 1)), .ask (.map (.pop 103 none)), .next,
        .ask (.map (.set 107 71)), .ask (.map .items), .next, .next, .next]
    let start : Tour Nat Nat := ⟨reached rules 0 requests, .fresh⟩
    let run := runAll (Turn.onTour rules) turns start
    let seen := run.1.filterMap Turn.seen?
    rules.Respects (Setoid.ker (· % 100)) ∧
      Undisturbed rules (Setoid.ker (· % 100)) turns start ∧ run.2.cursor = .finished ∧
      seen.map (fun x => (x.index, x.key)) = [(1, 1), (2, 6), (4, 7), (5, 5)] ∧
      ∃! n : Nat, ∃ x, seen[n]? = some x ∧ (Setoid.ker (· % 100)).r 7 x.key := by
  have hlawful : (Rules.through (· % 100) (fun n => (n % 4 : Nat)) 64000 none :
      Rules Nat Empty).Lawful (Setoid.ker (· % 100)) := Rules.lawful_through _ _ _ _
  suffices hgentle : Undisturbed _ _ _ _ by
    refine ⟨hlawful.toRespects, hgentle, by decide +kernel, by decide +kernel, ?_⟩
    exact (visit_survives_deletions hlawful.toRespects 0 _ _ hgentle).2.2.2.1 _ []
      (List.append_nil _).symm (by decide +kernel) 7
      ⟨4, 7, 71, ⟨by decide +kernel, by decide +kernel, by decide +kernel⟩, rfl⟩
  exact ⟨trivial, trivial, trivial, trivial,
    ⟨4, 7, 70, ⟨by decide +kernel, by decide +kernel, by decide +kernel⟩, rfl⟩,
    trivial, trivial, trivial, trivial, trivial⟩

end OpenAddressing
