/-
Where a character stands in a text.

Positions in error messages are counted in bytes of the UTF-8 encoding, while readers work on the
list of characters that are left. The position is what the whole text is longer than its rest.

* `Text.byteSize` — the number of bytes of a text;
* `Text.offsetIn` — the position in a text at which a given rest begins;
* `Text.offsetIn_append` — it is the size of the part in front of the rest.
-/
namespace RankedRules.Text

/-- The number of bytes that the characters take in UTF-8. -/
def byteSize : List Char → Nat
  | [] => 0
  | c :: rest => c.utf8Size + byteSize rest

@[simp] theorem byteSize_append (front rest : List Char) :
    byteSize (front ++ rest) = byteSize front + byteSize rest := by
  induction front with
  | nil => simp [byteSize]
  | cons c front ih => simp only [List.cons_append, byteSize, ih, Nat.add_assoc]

/-- The position of `rest`, an end of `whole`. -/
def offsetIn (whole rest : List Char) : Nat :=
  byteSize whole - byteSize rest

theorem offsetIn_append (front rest : List Char) :
    offsetIn (front ++ rest) rest = byteSize front := by
  rw [offsetIn, byteSize_append, Nat.add_sub_cancel]

end RankedRules.Text
