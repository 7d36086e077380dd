import Mathlib.Data.List.Nodup
import Pedigree.Drawing.Border
import Pedigree.Proofs.Lists
import Pedigree.Proofs.Sorting

/-! The lines that a border walks along. The corners of numbered bars stand on the lines between
levels, strictly in order, each corner on one line; so what a walk finds next to a corner is decided
on its own line. -/
namespace Pedigree

open Checked

namespace Drawing

def Bar.stop (b : Bar) : Int := b.x + b.width

namespace Border

/-- What tells vertices apart. -/
def Vertex.label (v : Vertex) : Nat × Kind := (v.bar, v.kind)

/-- The order along a line, as one number. -/
def Vertex.key (v : Vertex) : Int := 4 * v.pos.x + v.kind.rank

theorem rank_nonneg (k : Kind) : 0 ≤ k.rank ∧ k.rank < 4 := by
  cases k <;> decide

theorem pairwise_sortLine (line : List Vertex) : (sortLine line).Pairwise (·.key ≤ ·.key) := by
  refine (pairwise_sortBy_of_pairwise (fun v => v.pos.x)
    (pairwise_sortBy (fun v => v.kind.rank) line)).imp fun {v w} h => ?_
  have hv := rank_nonneg v.kind
  have hw := rank_nonneg w.kind
  unfold Vertex.key
  omega

theorem perm_sortLine (line : List Vertex) : (sortLine line).Perm line :=
  (perm_sortBy _ _).trans (perm_sortBy _ _)

theorem mem_sortLine {line : List Vertex} {v : Vertex} : v ∈ sortLine line ↔ v ∈ line :=
  (perm_sortLine line).mem_iff

section after

variable {line : List Vertex} {v w : Vertex}

theorem after?_of_absent (h : ∀ u ∈ line, u.label ≠ v.label) : after? v line = none := by
  induction line with
  | nil => rfl
  | cons a as ih =>
    have ha := h a List.mem_cons_self
    unfold after?
    rw [if_neg fun hl => ha (Prod.ext hl.1 hl.2)]
    exact ih fun u hu => h u (List.mem_cons_of_mem _ hu)

/-- In a line whose corners ascend by some number, the corner after another one is the next
greater one. -/
theorem after?_eq_some (f : Vertex → Int) (hf : line.Pairwise (f · < f ·)) (hv : v ∈ line)
    (hw : w ∈ line) (hl : ∀ u ∈ line, u.label = v.label → u = v) (hlt : f v < f w)
    (hc : ∀ u ∈ line, f u ≤ f v ∨ f w ≤ f u) : after? v line = some w := by
  induction line with
  | nil => cases hv
  | cons a as ih =>
    obtain ⟨ha, has⟩ := List.pairwise_cons.1 hf
    unfold after?
    by_cases hav : a.label = v.label
    · obtain rfl := hl a List.mem_cons_self hav
      have hwas : w ∈ as := by
        obtain rfl | hw := List.mem_cons.1 hw
        · omega
        · exact hw
      rw [if_pos ⟨rfl, rfl⟩]
      cases as with
      | nil => cases hwas
      | cons b bs =>
        have hab := ha b List.mem_cons_self
        have hcb := hc b (List.mem_cons_of_mem _ List.mem_cons_self)
        obtain rfl | hwbs := List.mem_cons.1 hwas
        · rfl
        · have := (List.pairwise_cons.1 has).1 w hwbs
          omega
    · rw [if_neg fun h => hav (Prod.ext h.1 h.2)]
      have hvas : v ∈ as := by
        obtain rfl | hv := List.mem_cons.1 hv
        · exact absurd rfl hav
        · exact hv
      have hwas : w ∈ as := by
        obtain rfl | hw := List.mem_cons.1 hw
        · have := ha v hvas
          omega
        · exact hw
      exact ih has hvas hwas (fun u hu => hl u (List.mem_cons_of_mem _ hu))
        fun u hu => hc u (List.mem_cons_of_mem _ hu)

theorem of_after?_eq_some (f : Vertex → Int) (hf : line.Pairwise (f · < f ·)) (hv : v ∈ line)
    (hl : ∀ u ∈ line, u.label = v.label → u = v) (h : after? v line = some w) :
    w ∈ line ∧ f v < f w ∧ ∀ u ∈ line, f u ≤ f v ∨ f w ≤ f u := by
  induction line with
  | nil => cases hv
  | cons a as ih =>
    obtain ⟨ha, has⟩ := List.pairwise_cons.1 hf
    unfold after? at h
    by_cases hav : a.label = v.label
    · obtain rfl := hl a List.mem_cons_self hav
      rw [if_pos ⟨rfl, rfl⟩] at h
      cases as with
      | nil => cases h
      | cons b bs =>
        cases h
        refine ⟨List.mem_cons_of_mem _ List.mem_cons_self, ha w List.mem_cons_self, fun u hu => ?_⟩
        obtain rfl | hu := List.mem_cons.1 hu
        · exact Or.inl (Int.le_refl _)
        obtain rfl | hu := List.mem_cons.1 hu
        · exact Or.inr (Int.le_refl _)
        · exact Or.inr (Int.le_of_lt ((List.pairwise_cons.1 has).1 u hu))
    · rw [if_neg fun h => hav (Prod.ext h.1 h.2)] at h
      have hvas : v ∈ as := by
        obtain rfl | hv := List.mem_cons.1 hv
        · exact absurd rfl hav
        · exact hv
      obtain ⟨hw, hlt, hc⟩ := ih has hvas (fun u hu => hl u (List.mem_cons_of_mem _ hu)) h
      refine ⟨List.mem_cons_of_mem _ hw, hlt, fun u hu => ?_⟩
      obtain rfl | hu := List.mem_cons.1 hu
      · exact Or.inl (Int.le_of_lt (ha v hvas))
      · exact hc u hu

theorem after?_eq_none (f : Vertex → Int) (hf : line.Pairwise (f · < f ·)) (hv : v ∈ line)
    (hl : ∀ u ∈ line, u.label = v.label → u = v) (hc : ∀ u ∈ line, f u ≤ f v) :
    after? v line = none := by
  cases h : after? v line with
  | none => rfl
  | some w =>
    obtain ⟨hw, hlt, -⟩ := of_after?_eq_some f hf hv hl h
    have := hc w hw
    omega

theorem of_after?_eq_none (f : Vertex → Int) (hf : line.Pairwise (f · < f ·)) (hv : v ∈ line)
    (hl : ∀ u ∈ line, u.label = v.label → u = v) (h : after? v line = none) :
    ∀ u ∈ line, f u ≤ f v := by
  induction line with
  | nil => cases hv
  | cons a as ih =>
    obtain ⟨ha, has⟩ := List.pairwise_cons.1 hf
    unfold after? at h
    by_cases hav : a.label = v.label
    · obtain rfl := hl a List.mem_cons_self hav
      rw [if_pos ⟨rfl, rfl⟩, List.head?_eq_none_iff] at h
      intro u hu
      rw [h] at hu
      obtain rfl := List.mem_singleton.1 hu
      exact Int.le_refl _
    · rw [if_neg fun h => hav (Prod.ext h.1 h.2)] at h
      have hvas : v ∈ as := by
        obtain rfl | hv := List.mem_cons.1 hv
        · exact absurd rfl hav
        · exact hv
      intro u hu
      obtain rfl | hu := List.mem_cons.1 hu
      · exact Int.le_of_lt (ha v hvas)
      · exact ih has hvas (fun u hu => hl u (List.mem_cons_of_mem _ hu)) h u hu

end after

/-- No corner stands on the lines twice. -/
def Distinct (lines : List (List Vertex)) : Prop := (lines.flatten.map Vertex.label).Nodup

namespace Distinct

variable {lines : List (List Vertex)} {line : List Vertex} {v w : Vertex}

theorem eq_of_label (h : Distinct lines) (hv : v ∈ lines.flatten) (hw : w ∈ lines.flatten)
    (hl : w.label = v.label) : w = v :=
  List.inj_on_of_nodup_map h hw hv hl

theorem eq_of_label_of_mem (h : Distinct lines) (hline : line ∈ lines) (hv : v ∈ line) :
    ∀ u ∈ line, u.label = v.label → u = v := fun _ hu hl =>
  h.eq_of_label (List.mem_flatten_of_mem hline hv) (List.mem_flatten_of_mem hline hu) hl

theorem of_cons (h : Distinct (line :: lines)) : Distinct lines ∧
    ∀ u ∈ line, ∀ v ∈ lines.flatten, u.label ≠ v.label := by
  unfold Distinct at h
  rw [List.flatten_cons, List.map_append, List.nodup_append] at h
  exact ⟨h.2.1, fun u hu v hv =>
    h.2.2 _ (List.mem_map_of_mem hu) _ (List.mem_map_of_mem hv)⟩

/-- What follows a corner is found on its line, in whichever direction lines are read. -/
theorem findSome?_after (h : Distinct lines) (hline : line ∈ lines) (hv : v ∈ line)
    (g : List Vertex → List Vertex) (hg : ∀ l u, u ∈ g l → u ∈ l) :
    (lines.findSome? fun l => after? v (g l)) = after? v (g line) := by
  induction lines with
  | nil => cases hline
  | cons l ls ih =>
    obtain ⟨hls, hdis⟩ := h.of_cons
    rw [List.findSome?_cons]
    obtain rfl | hline := List.mem_cons.1 hline
    · have hrest : (ls.findSome? fun l => after? v (g l)) = none := by
        rw [List.findSome?_eq_none_iff]
        intro m hm
        refine after?_of_absent fun u hu => ?_
        exact (hdis v hv u (List.mem_flatten_of_mem hm (hg m u hu))).symm
      rw [hrest]
      cases after? v (g line) <;> rfl
    · have hfirst : after? v (g l) = none := by
        refine after?_of_absent fun u hu => ?_
        exact hdis u (hg l u hu) v (List.mem_flatten_of_mem hline hv)
      rw [hfirst]
      exact ih hls hline

theorem next?_eq (h : Distinct lines) (hline : line ∈ lines) (hv : v ∈ line) :
    next? lines v = after? v line :=
  h.findSome?_after hline hv id fun _ _ hu => hu

theorem previous?_eq (h : Distinct lines) (hline : line ∈ lines) (hv : v ∈ line) :
    previous? lines v = after? v line.reverse :=
  h.findSome?_after hline hv List.reverse fun _ _ hu => List.mem_reverse.1 hu

theorem across_eq (h : Distinct lines) (hw : w ∈ lines.flatten)
    (hl : w.label = (v.bar, v.kind.across)) : across lines v = w := by
  unfold across
  rw [← List.find?_flatten]
  cases hf : lines.flatten.find? fun w => w.bar = v.bar ∧ w.kind = v.kind.across with
  | none =>
    have := List.find?_eq_none.1 hf w hw
    exact absurd (Prod.ext_iff.1 hl) (by simpa [Vertex.label] using this)
  | some u =>
    have hu := List.find?_some hf
    rw [decide_eq_true_eq] at hu
    exact h.eq_of_label hw (List.mem_of_find?_eq_some hf) ((Prod.ext hu.1 hu.2).trans hl.symm)

end Distinct

structure Band where
  y : Int
  bottom : Int
  bars : List (Bar × Nat)

def bandsFrom (first : Nat) : List Level → List Band
  | [] => []
  | l :: rest =>
    ⟨l.y, l.y + max l.height 0, l.bars.zipIdx first⟩ :: bandsFrom (first + l.bars.length) rest

def Kind.isTop : Kind → Bool
  | .topLeft | .topRight => true
  | .bottomLeft | .bottomRight => false

namespace Band

def corner (B : Band) (k : Kind) (b : Bar × Nat) : Vertex :=
  ⟨b.2, k, ⟨match k with
    | .topLeft | .bottomLeft => b.1.x
    | .topRight | .bottomRight => b.1.stop, if k.isTop then B.y else B.bottom⟩⟩

def tops (B : Band) : List Vertex :=
  B.bars.flatMap fun b => [B.corner .topLeft b, B.corner .topRight b]

def bottoms (B : Band) : List Vertex :=
  B.bars.flatMap fun b => [B.corner .bottomLeft b, B.corner .bottomRight b]

theorem mem_tops {B : Band} {v : Vertex} :
    v ∈ B.tops ↔ ∃ b ∈ B.bars, v = B.corner .topLeft b ∨ v = B.corner .topRight b := by
  simp [tops]

theorem mem_bottoms {B : Band} {v : Vertex} :
    v ∈ B.bottoms ↔ ∃ b ∈ B.bars, v = B.corner .bottomLeft b ∨ v = B.corner .bottomRight b := by
  simp [bottoms]

end Band

/-- No bars at all, as above the first band and below the last one. -/
def Band.outside : Band := ⟨0, 0, []⟩

def lineBetween (B C : Band) : List Vertex := sortLine (B.bottoms ++ C.tops)

/-- The lines below a band: those between further bands and the one below all of them. -/
def linesOf (B : Band) : List Band → List (List Vertex)
  | [] => [lineBetween B .outside]
  | C :: rest => lineBetween B C :: linesOf C rest

theorem value_levelSides (l : Level) (first : Nat) :
    (levelSides l first).value =
      ((⟨l.y, l.y + max l.height 0, l.bars.zipIdx first⟩ : Band).tops,
        (⟨l.y, l.y + max l.height 0, l.bars.zipIdx first⟩ : Band).bottoms) := by
  unfold levelSides
  simp only [value_bind, value_mapM, value_pure, List.flatMap_map]
  rfl

theorem value_linesFrom (B : Band) (first : Nat) (levels : List Level) :
    (linesFrom B.bottoms first levels).value = linesOf B (bandsFrom first levels) := by
  induction levels generalizing B first with
  | nil =>
    have h : lineBetween B .outside = sortLine B.bottoms := congrArg sortLine (List.append_nil _)
    rw [bandsFrom, linesOf, h]
    rfl
  | cons l rest ih =>
    unfold linesFrom
    simp only [value_bind, value_pure, value_levelSides, ih]
    rfl

theorem perm_flatten_linesOf (B : Band) (bands : List Band) :
    (linesOf B bands).flatten.Perm
      (B.bottoms ++ bands.flatMap fun C => C.tops ++ C.bottoms) := by
  induction bands generalizing B with
  | nil =>
    rw [linesOf, List.flatten_cons, List.flatten_nil, List.flatMap_nil, List.append_nil]
    exact perm_sortLine (B.bottoms ++ Band.outside.tops)
  | cons C rest ih =>
    rw [linesOf, List.flatten_cons, List.flatMap_cons]
    have h := (perm_sortLine (B.bottoms ++ C.tops)).append (ih C)
    simp only [List.append_assoc] at h ⊢
    exact h

def Band.numbers (B : Band) : List Nat := B.bars.map (·.2)

theorem numbers_bandsFrom (first : Nat) (levels : List Level) : ∃ n,
    (bandsFrom first levels).flatMap Band.numbers = List.range' first n := by
  induction levels generalizing first with
  | nil => exact ⟨0, rfl⟩
  | cons l rest ih =>
    obtain ⟨n, hn⟩ := ih (first + l.bars.length)
    refine ⟨l.bars.length + n, ?_⟩
    rw [bandsFrom, List.flatMap_cons, hn, ← List.range'_append_1, Band.numbers, List.zipIdx_map_snd]

theorem nodup_numbers (first : Nat) (levels : List Level) :
    ((bandsFrom first levels).flatMap Band.numbers).Nodup := by
  obtain ⟨n, hn⟩ := numbers_bandsFrom first levels
  rw [hn]
  exact List.nodup_range'

theorem labels_tops (B : Band) : B.tops.map Vertex.label =
    B.numbers.flatMap fun i => [(i, .topLeft), (i, .topRight)] := by
  simp [Band.tops, Band.numbers, List.map_flatMap, List.flatMap_map, Vertex.label, Band.corner]

theorem labels_bottoms (B : Band) : B.bottoms.map Vertex.label =
    B.numbers.flatMap fun i => [(i, .bottomLeft), (i, .bottomRight)] := by
  simp [Band.bottoms, Band.numbers, List.map_flatMap, List.flatMap_map, Vertex.label, Band.corner]

theorem nodup_pairs {k l : Kind} (hk : k ≠ l) {ns : List Nat} (h : ns.Nodup) :
    (ns.flatMap fun i => [(i, k), (i, l)]).Nodup := by
  refine List.nodup_flatMap.2 ⟨fun i _ => by simp [hk], h.imp fun {i j} hij => ?_⟩
  intro p hp hq
  simp only [List.mem_cons, List.not_mem_nil, or_false] at hp hq
  obtain rfl | rfl := hp <;> simp [hij] at hq

theorem distinct_linesOf {bands : List Band} (h : (bands.flatMap Band.numbers).Nodup) :
    Distinct (linesOf .outside bands) := by
  unfold Distinct
  have hperm := perm_flatten_linesOf .outside bands
  have hnil : Band.outside.bottoms = [] := rfl
  rw [hnil, List.nil_append] at hperm
  rw [(hperm.map Vertex.label).nodup_iff, List.map_flatMap]
  obtain ⟨hone, hdis⟩ := List.nodup_flatMap.1 h
  refine List.nodup_flatMap.2 ⟨fun B hB => ?_, hdis.imp fun {B C} hBC => ?_⟩
  · rw [List.map_append, labels_tops, labels_bottoms]
    refine List.nodup_append.2 ⟨nodup_pairs (by decide) (hone B hB),
      nodup_pairs (by decide) (hone B hB), fun p hp q hq hpq => ?_⟩
    subst hpq
    simp only [List.mem_flatMap, List.mem_cons, List.not_mem_nil, or_false] at hp hq
    obtain ⟨i, -, hp⟩ := hp
    obtain ⟨j, -, hq⟩ := hq
    obtain rfl | rfl := hp <;> simp at hq
  · have hnum (D : Band) (p : Nat × Kind) (hp : p ∈ (D.tops ++ D.bottoms).map Vertex.label) :
        p.1 ∈ D.numbers := by
      rw [List.map_append, labels_tops, labels_bottoms] at hp
      simp only [List.mem_append, List.mem_flatMap, List.mem_cons, List.not_mem_nil,
        or_false] at hp
      obtain ⟨i, hi, hp⟩ | ⟨i, hi, hp⟩ := hp <;> obtain rfl | rfl := hp <;> exact hi
    intro p hp hq
    exact hBC (hnum B p hp) (hnum C p hq)

end Border

end Drawing

end Pedigree
