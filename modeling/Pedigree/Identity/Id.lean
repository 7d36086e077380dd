/-! Identities of members. A member identity joins a family name and a given name with `::`. -/
namespace Pedigree

structure Id where
  text : String
  deriving DecidableEq, Repr, Inhabited, Hashable

namespace Id

/-- The identity of a child inside a parent. -/
def nested (parent child : Id) : Id := ⟨parent.text ++ "::" ++ child.text⟩

def member (family name : String) : Id := nested ⟨family⟩ ⟨name⟩

theorem eq_iff_text_eq {a b : Id} : a = b ↔ a.text = b.text := by
  cases a; cases b; simp

end Id

end Pedigree
