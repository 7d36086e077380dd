import Pedigree.Markup.CharClass
import Pedigree.Markup.Span

/-! A place in a line: what is left to read, and the byte offset at which it starts. -/
namespace Pedigree.Markup

structure Cursor where
  offset : Nat
  rest : List Char
  deriving DecidableEq, Repr, Inhabited

/-- The number of bytes that characters take. -/
def bytes : List Char → Nat
  | [] => 0
  | c :: cs => c.utf8Size + bytes cs

@[simp] theorem bytes_nil : bytes [] = 0 := rfl

@[simp] theorem bytes_cons (c : Char) (cs : List Char) :
    bytes (c :: cs) = c.utf8Size + bytes cs := rfl

@[simp] theorem bytes_append (cs ds : List Char) : bytes (cs ++ ds) = bytes cs + bytes ds := by
  induction cs with
  | nil => simp
  | cons c cs ih => simp [ih, Nat.add_assoc]

namespace Cursor

/-- The offset after the last character. -/
def stop (c : Cursor) : Nat := c.offset + bytes c.rest

/-- The span up to a later place. -/
def spanTo (c d : Cursor) : Span := ⟨c.offset, max c.offset d.offset, Nat.le_max_left _ _⟩

def dropWhile (c : Cursor) (p : Char → Bool) : Cursor :=
  ⟨c.offset + bytes (c.rest.takeWhile p), c.rest.dropWhile p⟩

/-- Past a number of characters. -/
def drop (c : Cursor) (n : Nat) : Cursor := ⟨c.offset + bytes (c.rest.take n), c.rest.drop n⟩

def skipBlanks (c : Cursor) : Cursor := c.dropWhile CharClass.isBlank

end Cursor

end Pedigree.Markup
