import Mathlib.Data.List.Chain
import Mathlib.Data.List.Perm.Basic
import Pedigree.Proofs.Neighbours

/-! The border of bands that hang together. It goes around each bar, and on the way around
everything that hangs below, so it passes every corner once. -/
namespace Pedigree

open Checked

namespace Drawing

namespace Border

/-- The bars that hang at a bar. -/
def hanging (cs : List (Bar × Nat)) (b : Bar × Nat) : List (Bar × Nat) :=
  cs.filter fun c => b.1.Hangs c.1

/-- Around each of some bars, with a way along its lower side. -/
def around (B : Band) (inner : Bar × Nat → List Vertex) (bs : List (Bar × Nat)) : List Vertex :=
  bs.flatMap fun b => B.corner .topLeft b :: B.corner .bottomLeft b ::
    (inner b ++ [B.corner .bottomRight b, B.corner .topRight b])

/-- Around each of some bars and everything that hangs there. -/
def contours (B : Band) (bs : List (Bar × Nat)) : List Band → List Vertex
  | [] => around B (fun _ => []) bs
  | C :: rest => around B (fun b => contours C (hanging C.bars b) rest) bs

theorem mem_hanging {cs : List (Bar × Nat)} {b c : Bar × Nat} :
    c ∈ hanging cs b ↔ c ∈ cs ∧ b.1.Hangs c.1 := by
  rw [hanging, List.mem_filter, decide_eq_true_eq]

theorem contours_nil (B : Band) (rest : List Band) : contours B [] rest = [] := by
  cases rest <;> rfl

theorem contours_cons (B : Band) (b : Bar × Nat) (bs : List (Bar × Nat)) (rest : List Band) :
    ∃ inner, contours B (b :: bs) rest = B.corner .topLeft b :: B.corner .bottomLeft b ::
      (inner ++ [B.corner .bottomRight b, B.corner .topRight b]) ++ contours B bs rest := by
  cases rest with
  | nil => exact ⟨[], by rw [contours, around, List.flatMap_cons]; rfl⟩
  | cons C rest =>
    exact ⟨contours C (hanging C.bars b) rest, by rw [contours, around, List.flatMap_cons]; rfl⟩

theorem contours_append (B : Band) (bs cs : List (Bar × Nat)) (rest : List Band) :
    contours B (bs ++ cs) rest = contours B bs rest ++ contours B cs rest := by
  cases rest with
  | nil => exact List.flatMap_append
  | cons C rest => exact List.flatMap_append

theorem head?_contours (B : Band) (b : Bar × Nat) (bs : List (Bar × Nat)) (rest : List Band) :
    (contours B (b :: bs) rest).head? = some (B.corner .topLeft b) := by
  obtain ⟨inner, h⟩ := contours_cons B b bs rest
  rw [h]
  rfl

theorem getLast?_contours (B : Band) {bs : List (Bar × Nat)} (rest : List Band) (h : bs ≠ []) :
    (contours B bs rest).getLast? = some (B.corner .topRight (bs.getLast h)) := by
  obtain ⟨inner, hc⟩ := contours_cons B (bs.getLast h) [] rest
  have hlast : (contours B [bs.getLast h] rest).getLast? =
      some (B.corner .topRight (bs.getLast h)) := by
    rw [hc, contours_nil, List.append_nil]
    simp [List.getLast?_cons]
  have hne : contours B [bs.getLast h] rest ≠ [] := by
    intro he
    rw [he] at hlast
    cases hlast
  have hsplit := contours_append B bs.dropLast [bs.getLast h] rest
  rw [List.dropLast_concat_getLast h] at hsplit
  rw [hsplit, List.getLast?_append_of_ne_nil _ hne, hlast]

variable {lines : List (List Vertex)}

theorem advance_topLeft (hd : Distinct lines) {B : Band} {b : Bar × Nat}
    (h : B.corner .bottomLeft b ∈ lines.flatten) :
    advance lines (B.corner .topLeft b) = B.corner .bottomLeft b :=
  hd.across_eq h rfl

theorem advance_bottomRight (hd : Distinct lines) {B : Band} {b : Bar × Nat}
    (h : B.corner .topRight b ∈ lines.flatten) :
    advance lines (B.corner .bottomRight b) = B.corner .topRight b :=
  hd.across_eq h rfl

theorem isChain_around (B : Band) (inner : Bar × Nat → List Vertex) {bs : List (Bar × Nat)}
    (hleft : ∀ b ∈ bs, advance lines (B.corner .topLeft b) = B.corner .bottomLeft b)
    (hright : ∀ b ∈ bs, advance lines (B.corner .bottomRight b) = B.corner .topRight b)
    (hinner : ∀ b ∈ bs, (B.corner .bottomLeft b :: (inner b ++ [B.corner .bottomRight b])).IsChain
      fun v w => advance lines v = w)
    (hnext : bs.IsChain fun b c =>
      advance lines (B.corner .topRight b) = B.corner .topLeft c) :
    (around B inner bs).IsChain fun v w => advance lines v = w := by
  induction bs with
  | nil => exact List.isChain_nil
  | cons b bs ih =>
    have hone : (B.corner .topLeft b :: B.corner .bottomLeft b ::
        (inner b ++ [B.corner .bottomRight b, B.corner .topRight b])).IsChain
          fun v w => advance lines v = w := by
      refine List.isChain_cons_cons.2 ⟨hleft b List.mem_cons_self, ?_⟩
      have hs : B.corner .bottomLeft b ::
          (inner b ++ [B.corner .bottomRight b, B.corner .topRight b]) =
            (B.corner .bottomLeft b :: (inner b ++ [B.corner .bottomRight b])) ++
              [B.corner .topRight b] := by simp
      rw [hs]
      refine List.isChain_append.2 ⟨hinner b List.mem_cons_self, List.isChain_singleton _, ?_⟩
      intro v hv w hw
      simp [List.getLast?_cons] at hv hw
      subst hv hw
      exact hright b List.mem_cons_self
    have hrest := ih (fun c hc => hleft c (List.mem_cons_of_mem _ hc))
      (fun c hc => hright c (List.mem_cons_of_mem _ hc))
      (fun c hc => hinner c (List.mem_cons_of_mem _ hc)) hnext.of_cons
    have he : around B inner (b :: bs) = (B.corner .topLeft b :: B.corner .bottomLeft b ::
        (inner b ++ [B.corner .bottomRight b, B.corner .topRight b])) ++ around B inner bs :=
      List.flatMap_cons
    rw [he]
    refine List.isChain_append.2 ⟨hone, hrest, fun v hv w hw => ?_⟩
    cases bs with
    | nil => cases hw
    | cons c cs =>
      have hw' : w = B.corner .topLeft c := by
        cases hw
        rfl
      simp [List.getLast?_cons] at hv
      subst hv hw'
      exact (List.isChain_cons_cons.1 hnext).1

theorem pairwise_hanging {cs : List (Bar × Nat)} (h : Spread cs) (b : Bar × Nat) :
    (hanging cs b).Pairwise fun c d => c.1.stop < d.1.x :=
  h.apart.sublist List.filter_sublist

theorem isChain_hanging (hd : Distinct lines) {B C : Band} (hline : lineBetween B C ∈ lines)
    (hf : Fits B.bars C.bars) {b : Bar × Nat} (hb : b ∈ B.bars) :
    (hanging C.bars b).IsChain fun c d =>
      advance lines (C.corner .topRight c) = C.corner .topLeft d := by
  refine (isChain_covers (pairwise_hanging hf.below b)).imp_of_mem_imp
    fun c d hc hd' ⟨hlt, hcov⟩ => ?_
  obtain ⟨hcm, hc₁, hc₂⟩ := mem_hanging.1 hc
  obtain ⟨hdm, hd₁, hd₂⟩ := mem_hanging.1 hd'
  apply advance_topRight_of_next_bar hd hline hf.above hf.below hcm hdm hlt
  · intro e he
    have hcw := hf.below.wide c hcm
    have hew := hf.below.wide e he
    by_cases hh : b.1.Hangs e.1
    · exact hcov e (mem_hanging.2 ⟨he, hh⟩)
    · unfold Bar.Hangs at hh
      obtain rfl | h | h := hf.below.cases he hcm
      · exact Or.inl rfl
      · exact Or.inr (Or.inl h)
      obtain rfl | h' | h' := hf.below.cases he hdm
      · exact Or.inr (Or.inr (Or.inl rfl))
      · omega
      · exact Or.inr (Or.inr (Or.inr h'))
  · intro b' hb'
    have hb'w := hf.above.wide b' hb'
    obtain rfl | h | h := hf.above.cases hb hb' <;> omega

/-- Down from a bar to the first one that hangs there, around all of them, and back up from the last
one. -/
theorem isChain_below (hd : Distinct lines) {B C : Band} {rest : List Band}
    (hline : lineBetween B C ∈ lines) (hf : Fits B.bars C.bars) (hl : Linked B.bars C.bars)
    {b : Bar × Nat} (hb : b ∈ B.bars)
    (hinner : (contours C (hanging C.bars b) rest).IsChain fun v w => advance lines v = w) :
    (B.corner .bottomLeft b :: (contours C (hanging C.bars b) rest ++
      [B.corner .bottomRight b])).IsChain fun v w => advance lines v = w := by
  have hp := pairwise_hanging hf.below b
  have hmem (d : Bar × Nat) (hdm : d ∈ C.bars) (hh : b.1.Hangs d.1) : d ∈ hanging C.bars b :=
    mem_hanging.2 ⟨hdm, hh⟩
  have hhangs (d : Bar × Nat) (h : d ∈ hanging C.bars b) : d ∈ C.bars ∧ b.1.Hangs d.1 :=
    mem_hanging.1 h
  generalize hanging C.bars b = bs at hp hmem hhangs hinner ⊢
  cases bs with
  | nil =>
    rw [contours_nil, List.nil_append]
    refine List.isChain_cons_cons.2 ⟨?_, List.isChain_singleton _⟩
    exact advance_bottomLeft_of_free hd hline hf hb fun c hc hh => by cases hmem c hc hh
  | cons c cs =>
    have hne : c :: cs ≠ [] := List.cons_ne_nil c cs
    refine List.isChain_cons.2 ⟨fun v hv => ?_, List.isChain_append.2 ⟨hinner,
      List.isChain_singleton _, fun v hv w hw => ?_⟩⟩
    · rw [List.head?_append, head?_contours] at hv
      cases hv
      obtain ⟨hc, hh⟩ := hhangs c List.mem_cons_self
      apply advance_bottomLeft_of_first hd hline hf hb hc hh
      intro d hdm hdh
      obtain rfl | h := List.mem_cons.1 (hmem d hdm hdh)
      · exact Or.inl rfl
      · exact Or.inr ((List.pairwise_cons.1 hp).1 d h)
    · rw [getLast?_contours C rest hne] at hv
      cases hv
      cases hw
      obtain ⟨hc, hh⟩ := hhangs _ (List.getLast_mem hne)
      apply advance_topRight_of_last hd hline hf hl hb hc hh
      intro d hdm hdh
      exact eq_last_or_rel hp hne d (hmem d hdm hdh)

theorem Fits.of_spread {bs : List (Bar × Nat)} (h : Spread bs) : Fits bs [] :=
  ⟨h, ⟨fun _ hc => (by cases hc), List.Pairwise.nil⟩,
    List.pairwise_iff_forall_sublist.2 fun _ _ hc => (by cases hc),
    List.pairwise_iff_forall_sublist.2 fun _ _ hc => (by cases hc)⟩

/-- The walk goes around everything that hangs together. -/
theorem isChain_contours (hd : Distinct lines) : ∀ (rest : List Band) (B : Band),
    (∀ line ∈ linesOf B rest, line ∈ lines) → Spread B.bars →
    (B :: rest).IsChain (fun B C => Fits B.bars C.bars ∧ Linked B.bars C.bars) →
    (∀ b ∈ B.bars, B.corner .topRight b ∈ lines.flatten) → ∀ bs : List (Bar × Nat),
      (∀ b ∈ bs, b ∈ B.bars) →
      bs.IsChain (fun b c => advance lines (B.corner .topRight b) = B.corner .topLeft c) →
      (contours B bs rest).IsChain fun v w => advance lines v = w := by
  -- The induction is on the bands below; `bs` are the bars that hang at one bar above.
  intro rest
  induction rest with
  | nil =>
    intro B hlines hs _ htop bs hbs hnext
    have hline : lineBetween B .outside ∈ lines := hlines _ List.mem_cons_self
    have hf : Fits B.bars Band.outside.bars := .of_spread hs
    apply isChain_around B _ _ (fun b hb => advance_bottomRight hd (htop b (hbs b hb))) _ hnext
    · intro b hb
      exact advance_topLeft hd
        (List.mem_flatten_of_mem hline (bottom_mem_lineBetween .outside (hbs b hb)).1)
    · intro b hb
      refine List.isChain_cons_cons.2 ⟨?_, List.isChain_singleton _⟩
      exact advance_bottomLeft_of_free hd hline hf (hbs b hb) fun c hc => by cases hc
  | cons C rest ih =>
    intro B hlines hs hchain htop bs hbs hnext
    obtain ⟨⟨hf, hl⟩, hchain⟩ := List.isChain_cons_cons.1 hchain
    have hline : lineBetween B C ∈ lines := hlines _ List.mem_cons_self
    apply isChain_around B _ _ (fun b hb => advance_bottomRight hd (htop b (hbs b hb))) _ hnext
    · intro b hb
      exact advance_topLeft hd
        (List.mem_flatten_of_mem hline (bottom_mem_lineBetween C (hbs b hb)).1)
    · intro b hb
      exact isChain_below hd hline hf hl (hbs b hb) <|
        ih C (fun line h => hlines line (List.mem_cons_of_mem _ h)) hf.below hchain
          (fun c hc => List.mem_flatten_of_mem hline (top_mem_lineBetween B hc).2)
          (hanging C.bars b) (fun c hc => (mem_hanging.1 hc).1) (isChain_hanging hd hline hf (hbs b hb))

theorem walk_eq_of_isChain {v : Vertex} {vs : List Vertex}
    (h : (v :: vs).IsChain fun v w => advance lines v = w) :
    walk lines (vs.length + 1) v = v :: vs := by
  induction vs generalizing v with
  | nil => rfl
  | cons w ws ih =>
    obtain ⟨he, hws⟩ := List.isChain_cons_cons.1 h
    rw [walk, he, List.length_cons, ih hws]

theorem flatMap_hanging {bs cs : List (Bar × Nat)} (hf : Fits bs cs) (hl : Linked bs cs) :
    bs.flatMap (hanging cs) = cs := by
  have hx (c d : Bar × Nat) (hc : c ∈ cs) (h : c.1.stop < d.1.x) : c.1.x < d.1.x := by
    have := hf.below.wide c hc
    omega
  have hcs : cs.Pairwise fun c d => c.1.x < d.1.x :=
    hf.below.apart.imp_of_mem fun hc _ h => hx _ _ hc h
  have hbs : (bs.flatMap (hanging cs)).Pairwise fun c d => c.1.x < d.1.x := by
    refine List.pairwise_flatMap.2 ⟨fun b _ => hcs.sublist List.filter_sublist, ?_⟩
    refine (hf.above.apart.and hf.gapStart).imp_of_mem fun {b b'} hb hb' ⟨hlt, hgap⟩ c hc d hd => ?_
    obtain ⟨hcm, hc₁, hc₂⟩ := mem_hanging.1 hc
    obtain ⟨hdm, hd₁, hd₂⟩ := mem_hanging.1 hd
    have hgc := hgap c hcm
    have hgd := hgap d hdm
    obtain rfl | h | h := hf.below.cases hcm hdm
    · omega
    · exact hx c d hcm h
    · have := hf.below.wide d hdm
      have := hf.below.wide c hcm
      omega
  have hnodup {l : List (Bar × Nat)} (h : l.Pairwise fun c d => c.1.x < d.1.x) : l.Nodup :=
    h.imp fun {c d} hlt he => by
      rw [he] at hlt
      omega
  have hperm : (bs.flatMap (hanging cs)).Perm cs := by
    refine (List.perm_ext_iff_of_nodup (hnodup hbs) (hnodup hcs)).2 fun c => ?_
    rw [List.mem_flatMap]
    constructor
    · rintro ⟨b, -, hc⟩
      exact (mem_hanging.1 hc).1
    · intro hc
      obtain ⟨b, hb, hh⟩ := hl c hc
      exact ⟨b, hb, mem_hanging.2 ⟨hc, hh⟩⟩
  exact hperm.eq_of_pairwise (fun c d _ _ h h' => by omega) hbs hcs

theorem flatMap_contours (C : Band) (f : Bar × Nat → List (Bar × Nat)) (bs : List (Bar × Nat))
    (rest : List Band) :
    (bs.flatMap fun b => contours C (f b) rest) = contours C (bs.flatMap f) rest := by
  induction bs with
  | nil => rw [List.flatMap_nil, List.flatMap_nil, contours_nil]
  | cons b bs ih => rw [List.flatMap_cons, List.flatMap_cons, contours_append, ih]

theorem perm_around (B : Band) (inner : Bar × Nat → List Vertex) (bs : List (Bar × Nat)) :
    (around B inner bs).Perm
      ((bs.flatMap (fun b => [B.corner .topLeft b, B.corner .topRight b]) ++
        bs.flatMap fun b => [B.corner .bottomLeft b, B.corner .bottomRight b]) ++
          bs.flatMap inner) := by
  have hone (b : Bar × Nat) : (B.corner .topLeft b :: B.corner .bottomLeft b ::
      (inner b ++ [B.corner .bottomRight b, B.corner .topRight b])).Perm
        (([B.corner .topLeft b, B.corner .topRight b] ++
          [B.corner .bottomLeft b, B.corner .bottomRight b]) ++ inner b) := by
    refine List.Perm.cons _ (((List.perm_append_comm).cons _).trans ?_)
    exact (((List.Perm.swap _ _ _).cons _).trans (List.Perm.swap _ _ _)).append_right (inner b)
  refine (List.Perm.flatMap_left bs fun b _ => hone b).trans ?_
  refine (List.flatMap_append_perm bs _ inner).symm.trans ?_
  exact (List.flatMap_append_perm bs _ _).symm.append_right _

/-- The border of bands that hang together passes every corner once. -/
theorem perm_contours (rest : List Band) (B : Band)
    (h : (B :: rest).IsChain fun B C => Fits B.bars C.bars ∧ Linked B.bars C.bars) :
    (contours B B.bars rest).Perm ((B :: rest).flatMap fun D => D.tops ++ D.bottoms) := by
  induction rest generalizing B with
  | nil =>
    have hp := perm_around B (fun _ => []) B.bars
    have hnil : (B.bars.flatMap fun _ => ([] : List Vertex)) = [] := by simp
    rw [hnil, List.append_nil] at hp
    rw [List.flatMap_cons, List.flatMap_nil, List.append_nil]
    exact hp
  | cons C rest ih =>
    obtain ⟨⟨hf, hl⟩, hrest⟩ := List.isChain_cons_cons.1 h
    have hp := perm_around B (fun b => contours C (hanging C.bars b) rest) B.bars
    rw [flatMap_contours C (hanging C.bars) B.bars rest, flatMap_hanging hf hl] at hp
    rw [List.flatMap_cons]
    exact hp.trans ((ih C hrest).append_left _)

theorem head?_of_least {line : List Vertex} (hs : line.Pairwise (·.key < ·.key)) {v : Vertex}
    (hv : v ∈ line) (h : ∀ u ∈ line, v.key ≤ u.key) : line.head? = some v := by
  cases line with
  | nil => cases hv
  | cons a as =>
    obtain rfl | hva := List.mem_cons.1 hv
    · rfl
    · have := (List.pairwise_cons.1 hs).1 v hva
      have := h a List.mem_cons_self
      omega

theorem head?_linesOf {B : Band} {rest : List Band}
    (hn : ((B :: rest).flatMap Band.numbers).Nodup) (hs : Spread B.bars) {b : Bar × Nat}
    {bs : List (Bar × Nat)} (hb : B.bars = b :: bs) :
    (linesOf .outside (B :: rest)).head?.bind (·.head?) = some (B.corner .topLeft b) := by
  have hd := distinct_linesOf hn
  have hline : lineBetween .outside B ∈ linesOf .outside (B :: rest) := List.mem_cons_self
  have hbm : b ∈ B.bars := by
    rw [hb]
    exact List.mem_cons_self
  apply head?_of_least (pairwise_lineBetween hd hline spread_outside hs)
    (top_mem_lineBetween .outside hbm).1
  apply forall_lineBetween
  · intro c hc
    cases hc
  · intro c hc
    have hbw := hs.wide b hbm
    have hcw := hs.wide c hc
    have hap := hs.apart
    simp only [key_topLeft, key_topRight]
    rw [hb] at hc hap
    obtain rfl | hc := List.mem_cons.1 hc
    · omega
    · have := (List.pairwise_cons.1 hap).1 c hc
      omega

/-- The walk along the lines of bands that hang together is their border. -/
theorem walk_eq_contours {B : Band} {rest : List Band}
    (hn : ((B :: rest).flatMap Band.numbers).Nodup) (hs : Spread B.bars)
    (h : (B :: rest).IsChain fun B C => Fits B.bars C.bars ∧ Linked B.bars C.bars)
    {b : Bar × Nat} {bs : List (Bar × Nat)} (hb : B.bars = b :: bs) :
    walk (linesOf .outside (B :: rest)) (linesOf .outside (B :: rest)).flatten.length
      (B.corner .topLeft b) = contours B B.bars rest := by
  have hd := distinct_linesOf hn
  have hline : lineBetween .outside B ∈ linesOf .outside (B :: rest) := List.mem_cons_self
  have hchain : (contours B B.bars rest).IsChain fun v w =>
      advance (linesOf .outside (B :: rest)) v = w := by
    apply isChain_contours hd rest B (fun line hl => List.mem_cons_of_mem _ hl) hs h
    · intro c hc
      exact List.mem_flatten_of_mem hline (top_mem_lineBetween .outside hc).2
    · intro c hc
      exact hc
    · refine (isChain_covers hs.apart).imp_of_mem_imp fun c d hc hd' ⟨hlt, hcov⟩ => ?_
      exact advance_topRight_of_next_bar hd hline spread_outside hs hc hd' hlt hcov
        fun e he => by cases he
  have hlen : (linesOf .outside (B :: rest)).flatten.length = (contours B B.bars rest).length := by
    rw [(perm_flatten_linesOf .outside (B :: rest)).length_eq, (perm_contours rest B h).length_eq]
    rfl
  rw [hlen]
  rw [hb] at hchain ⊢
  obtain ⟨inner, he⟩ := contours_cons B b bs rest
  rw [he, List.cons_append] at hchain ⊢
  exact walk_eq_of_isChain hchain

end Border

end Drawing

end Pedigree
