import Smali.Text.Basic

/-!
# Listings

A listing pairs texts with what they stand for, each text once and in order: the
order of the first different characters. So there is one listing for one content,
and the order in which entries were made leaves no trace.
-/

namespace Smali

/-- Whether a text comes before another, by their first different character. -/
def Text.before : Text → Text → Bool
  | [], [] => false
  | [], _ :: _ => true
  | _ :: _, [] => false
  | c :: s, d :: t => c < d || (c == d && before s t)

namespace Listing

variable {α : Type}

/-- A listing with an entry for a key; an entry that was there is replaced. -/
def insert (key : Text) (entry : α) : List (Text × α) → List (Text × α)
  | [] => [(key, entry)]
  | (other, old) :: rest =>
    if key = other then (key, entry) :: rest
    else if key.before other then (key, entry) :: (other, old) :: rest
    else (other, old) :: insert key entry rest

/-- A listing with an entry inserted has the entry under its key. -/
theorem lookup_insert (key : Text) (entry : α) (listing : List (Text × α)) :
    (insert key entry listing).lookup key = some entry := by
  fun_induction insert key entry listing with
  | case1 => exact List.lookup_cons_self
  | case2 => exact List.lookup_cons_self
  | case3 => exact List.lookup_cons_self
  | case4 other old rest hne _ ih => rw [List.lookup_cons, beq_eq_false_iff_ne.mpr hne, ih]

/-- Inserting under one key leaves the entries of all others. -/
theorem lookup_insert_of_ne {key other : Text} (h : other ≠ key) (entry : α)
    (listing : List (Text × α)) :
    (insert key entry listing).lookup other = listing.lookup other := by
  have hb : (other == key) = false := beq_eq_false_iff_ne.mpr h
  fun_induction insert key entry listing with
  | case1 => simp only [List.lookup_cons, hb, List.lookup_nil]
  | case2 => simp only [List.lookup_cons, hb]
  | case3 => simp only [List.lookup_cons, hb]
  | case4 k old rest _ _ ih => simp only [List.lookup_cons, ih]

end Listing

end Smali
