import Mathlib
import Pedigree.Proofs.Disjoint

/-! Only origins are global. Stacking and packing move blocks and leave alone what is inside them,
and what is inside depends on nothing but the family and the members it refers to. -/
namespace Pedigree

open Checked Drawing

namespace Drawing.Block

/-- Everything of a block but where it stands. -/
structure Content where
  width : Int
  height : Int
  title : Title
  roots : List Root
  outline : List Pos

def content (b : Block) : Content :=
  ⟨b.rect.width, b.rect.height, b.title, b.roots, b.outline⟩

@[simp] theorem origin_moveTo (b : Block) (p : Pos) : (b.moveTo p).origin = p := rfl

theorem content_stackFrom (y : Int) (bs : List Block) :
    (stackFrom y bs).value.map content = bs.map content := by
  induction bs generalizing y with
  | nil => rfl
  | cons b bs ih =>
    rw [List.map_cons, ← ih (y + b.rect.height)]
    rfl

/-- A stacked block stands below all blocks before it. -/
theorem origin_stackFrom {y : Int} {bs : List Block} {i : Nat} {b : Block}
    (h : (stackFrom y bs).value[i]? = some b) :
    b.origin = ⟨0, y + (((stackFrom y bs).value.take i).map (·.rect.height)).sum⟩ := by
  induction bs generalizing y i with
  | nil => cases h
  | cons a bs ih =>
    have hv : (stackFrom y (a :: bs)).value =
      a.moveTo ⟨0, y⟩ :: (stackFrom (y + a.rect.height) bs).value := rfl
    rw [hv] at h ⊢
    cases i with
    | zero =>
      cases h
      simp
    | succ i =>
      rw [ih h, List.take_succ_cons, List.map_cons, List.sum_cons, ← Int.add_assoc]
      rfl

end Drawing.Block

/-! ### Moves -/

namespace Packing

/-- How far some placements take a block. -/
def travel (i : Nat) (ps : List Placement) : Pos :=
  let own := ps.filter (·.family == i)
  ⟨(own.map (·.offset.x)).sum, (own.map (·.offset.y)).sum⟩

theorem travel_cons (i : Nat) (p : Placement) (ps : List Placement) : travel i (p :: ps) =
    ⟨(travel i [p]).x + (travel i ps).x, (travel i [p]).y + (travel i ps).y⟩ := by
  unfold travel
  rw [List.filter_cons]
  split
  · next h => simp [h]
  · next h => simp [h]

theorem travel_of_unmoved {i : Nat} {ps : List Placement} (h : ∀ p ∈ ps, p.family ≠ i) :
    travel i ps = ⟨0, 0⟩ := by
  have hf : ps.filter (·.family == i) = [] := by simpa using h
  rw [travel, hf]
  rfl

/-- Blocks that stand as far away as some placements take them, and are the same within. -/
structure Moved (before after : List Block) (ps : List Placement) : Prop where
  content : after.map Block.content = before.map Block.content
  origin : ∀ (i : Nat) (a b : Block), before[i]? = some a → after[i]? = some b →
    b.origin = ⟨a.origin.x + (travel i ps).x, a.origin.y + (travel i ps).y⟩

namespace Moved

theorem length {before after : List Block} {ps : List Placement} (h : Moved before after ps) :
    after.length = before.length := by
  have hl := congrArg List.length h.content
  rwa [List.length_map, List.length_map] at hl

theorem refl (blocks : List Block) : Moved blocks blocks [] := by
  constructor
  · rfl
  · intro i a b ha hb
    rw [ha] at hb
    cases hb
    simp [travel]

theorem cons {before between after : List Block} {p : Placement} {ps : List Placement}
    (h : Moved before between [p]) (h' : Moved between after ps) :
    Moved before after (p :: ps) := by
  constructor
  · rw [h'.content, h.content]
  · intro i a c ha hc
    have hi : i < between.length := by
      rw [← h'.length]
      exact (List.getElem?_eq_some_iff.1 hc).1
    have hb := List.getElem?_eq_getElem hi
    rw [h'.origin i _ c hb hc, h.origin i a _ ha hb, travel_cons i p ps]
    simp only [Int.add_assoc]

/-- Following a link moves one block, by the offset of the placement. -/
theorem follow {step : Int} {s s' : State} {l : Link} {p : Placement}
    (h : follow step s l = .ok (s', p)) : Moved s.blocks s'.blocks [p] := by
  obtain ⟨rfl, rfl⟩ := follow_eq_ok h
  constructor
  · apply List.ext_getElem?
    intro i
    simp only [State.move, List.getElem?_map, List.getElem?_modify, Option.map_eq_map,
      Option.map_map]
    apply Option.map_congr
    intro b _
    rw [Function.comp_apply]
    split
    · rfl
    · rfl
  · intro i a b ha hb
    simp only [State.move, List.getElem?_modify, ha, Option.map_eq_map, Option.map_some,
      Option.some.injEq] at hb
    subst hb
    split
    · next hi =>
      subst hi
      simp [travel, State.originOf, ha]
    · next hi => simp [travel, hi]

theorem followAll {step : Int} {s s' : State} {ls : List Link} {ps : List Placement}
    (h : followAll step s ls = .ok (s', ps)) : Moved s.blocks s'.blocks ps := by
  induction ls generalizing s ps with
  | nil =>
    cases h
    exact refl _
  | cons l ls ih =>
    obtain ⟨t, p, qs, hl, hls, rfl⟩ := followAll_cons_eq_ok h
    exact (follow hl).cons (ih hls)

theorem pack {S : Type} {style : Style S} {blocks packed : List Block}
    {placements : List Placement} (h : pack style blocks = .ok (packed, placements)) :
    Moved blocks packed placements := by
  cases pack_eq_ok h with
  | inl h =>
    obtain ⟨-, rfl, rfl⟩ := h
    exact refl _
  | inr h =>
    obtain ⟨s, s', hs, hf, rfl⟩ := h
    rw [← blocks_start hs]
    exact followAll hf

end Moved

end Packing

/-! ### What a family brings along -/

namespace Kinship

variable {memberOf memberOf' : Snapshot.Reference → Option Id}

theorem add_congr (k : Kinship) {r : Snapshot.Relation}
    (h : ∀ x ∈ r.sources ++ r.targets, memberOf x = memberOf' x) :
    k.add memberOf r = k.add memberOf' r := by
  have same (xs : List Snapshot.Reference) (hx : ∀ x ∈ xs, memberOf x = memberOf' x) :
      xs.map (personOf memberOf) = xs.map (personOf memberOf') := by
    apply List.map_congr_left
    intro x hmem
    rw [personOf, personOf, hx x hmem]
  have htargets := same r.targets fun x hx => h x (List.mem_append_right _ hx)
  unfold add
  cases hs : r.sources with
  | nil => rfl
  | cons first rest =>
    rw [hs] at h
    have hfirst := h first (List.mem_append_left _ List.mem_cons_self)
    have hrest := same rest fun x hx => h x (List.mem_append_left _ (List.mem_cons_of_mem _ hx))
    dsimp only
    rw [htargets, hrest, personOf, hfirst, personOf]

/-- A family is read the same wherever its references denote the same members. -/
theorem ofFamily_congr {f : Snapshot.Family}
    (h : ∀ x ∈ f.references, memberOf x = memberOf' x) :
    ofFamily memberOf f = ofFamily memberOf' f := by
  apply List.foldl_ext
  intro k r hr
  apply add_congr
  intro x hx
  exact h x (List.mem_flatMap.2 ⟨r, (List.mem_filter.1 hr).1, hx⟩)

end Kinship

namespace Layout

variable {settings : Settings Binary32} {ratio : Binary32} {document : Snapshot}

theorem content_stacked : (stacked settings ratio document).value.map Block.content =
    document.kinships.map fun k => (block settings ratio k).value.content := by
  have hv : (stacked settings ratio document).value =
    (Block.stackFrom 0 (document.kinships.mapM (block settings ratio)).value).value := rfl
  rw [hv, Block.content_stackFrom, value_mapM, List.map_map]
  rfl

/-- A document is drawn as it was stacked, but for some moves. -/
theorem moved_of_align {blocks : List Block} (h : align settings ratio document = .ok blocks) :
    ∃ ps, Packing.Moved (stacked settings ratio document).value blocks ps := by
  have hd := (drawn_eq_ok (align_eq_ok h).2).2
  split at hd
  · obtain ⟨placements, hpack⟩ := hd
    exact ⟨placements, .pack hpack⟩
  · rw [hd]
    exact ⟨[], .refl _⟩

/-- What stands within a block is that of its family. -/
theorem content_of_align {blocks : List Block} (h : align settings ratio document = .ok blocks) :
    blocks.map Block.content =
      document.kinships.map fun k => (block settings ratio k).value.content := by
  obtain ⟨ps, hm⟩ := moved_of_align h
  rw [hm.content, content_stacked]

theorem exists_block_of_align {blocks : List Block}
    (h : align settings ratio document = .ok blocks) {i : Nat} {f : Snapshot.Family}
    (hf : document.families[i]? = some f) : ∃ b, blocks[i]? = some b ∧
      b.content = (block settings ratio (Kinship.ofFamily document.memberOf f)).value.content := by
  have hi := congrArg (·[i]?) (content_of_align h)
  simp only [Snapshot.kinships, List.getElem?_map, hf, Option.map_some] at hi
  exact Option.map_eq_some_iff.1 hi

/-- Packing and the other families only touch the origin of a block. -/
theorem align_only_moves {packed flat : List Block}
    (hp : align { settings with pack := true } ratio document = .ok packed)
    (hf : align { settings with pack := false } ratio document = .ok flat) :
    packed.length = flat.length ∧ packed.map Block.content = flat.map Block.content ∧
    (∀ (i : Nat) (b : Block), flat[i]? = some b →
      b.origin = ⟨0, ((flat.take i).map (·.rect.height)).sum⟩) ∧
    (∃ placements, Packing.pack settings.style flat = .ok (packed, placements) ∧
      ∀ (i : Nat) (a b : Block), flat[i]? = some a → packed[i]? = some b →
        b.origin = ⟨a.origin.x + (Packing.travel i placements).x,
          a.origin.y + (Packing.travel i placements).y⟩ ∧
        ((∀ p ∈ placements, p.family ≠ i) → b.origin = a.origin)) ∧
    ∀ (pack : Bool) (other : Snapshot) (blocks : List Block),
      align { settings with pack := pack } ratio other = .ok blocks →
      ∀ (i j : Nat) (f : Snapshot.Family), document.families[i]? = some f →
        other.families[j]? = some f → (∀ r ∈ f.references, document.memberOf r = other.memberOf r) →
        ∃ a b, flat[i]? = some a ∧ blocks[j]? = some b ∧ b.content = a.content := by
  have hflat : flat = (stacked settings ratio document).value :=
    (drawn_eq_ok (align_eq_ok hf).2).2
  have hstacked : ∃ placements,
      Packing.pack settings.style (stacked settings ratio document).value =
        .ok (packed, placements) := (drawn_eq_ok (align_eq_ok hp).2).2
  obtain ⟨placements, hpack⟩ := hstacked
  rw [← hflat] at hpack
  have hmoved := Packing.Moved.pack hpack
  refine ⟨hmoved.length, hmoved.content, ?_, ⟨placements, hpack, ?_⟩, ?_⟩
  · intro i b hb
    rw [hflat] at hb ⊢
    have ho := Block.origin_stackFrom (y := 0) hb
    rwa [Int.zero_add] at ho
  · intro i a b ha hb
    have ho := hmoved.origin i a b ha hb
    refine ⟨ho, ?_⟩
    intro hstill
    rw [Packing.travel_of_unmoved hstill] at ho
    simpa using ho
  · intro pack other blocks hblocks i j f hi hj hr
    obtain ⟨a, ha, hac⟩ := exists_block_of_align hf hi
    obtain ⟨b, hb, hbc⟩ := exists_block_of_align hblocks hj
    refine ⟨a, b, ha, hb, ?_⟩
    rw [hac, hbc, Kinship.ofFamily_congr hr]
    rfl

/-- The daughter's own family without that of her parents. -/
def daughterAlone : Snapshot :=
  ⟨[⟨"Jones", [⟨[⟨30, "Carl"⟩], [], true⟩, ⟨[⟨40, "Alice"⟩], [], true⟩]⟩], ⟨[(40, ⟨"Alice"⟩)]⟩⟩

theorem align_only_moves_daughterBelow : ∃ packed flat alone,
    align { (default : Settings Binary32) with pack := true } (Binary32.ofInt 1) daughterBelow =
      .ok packed ∧
    align { (default : Settings Binary32) with pack := false } (Binary32.ofInt 1) daughterBelow =
      .ok flat ∧
    align { (default : Settings Binary32) with pack := true } (Binary32.ofInt 1) daughterAlone =
      .ok alone ∧
    packed.map (·.origin) = [⟨0, 0⟩, ⟨-90, 146⟩] ∧ flat.map (·.origin) = [⟨0, 0⟩, ⟨0, 146⟩] ∧
    packed.map Block.content = flat.map Block.content ∧
    ∃ a b, flat[1]? = some a ∧ alone[0]? = some b ∧ b.content = a.content := by
  have hp : ((align { (default : Settings Binary32) with pack := true } (Binary32.ofInt 1)
      daughterBelow).map (·.map (·.origin))).toOption = some [⟨0, 0⟩, ⟨-90, 146⟩] := by
    decide +kernel
  have hf : ((align { (default : Settings Binary32) with pack := false } (Binary32.ofInt 1)
      daughterBelow).map (·.map (·.origin))).toOption = some [⟨0, 0⟩, ⟨0, 146⟩] := by
    decide +kernel
  have ha : ((align { (default : Settings Binary32) with pack := true } (Binary32.ofInt 1)
      daughterAlone).map (·.map (·.origin))).toOption = some [⟨0, 0⟩] := by decide +kernel
  obtain ⟨packed, hp, hpo⟩ := eq_ok_of_toOption_map hp
  obtain ⟨flat, hf, hfo⟩ := eq_ok_of_toOption_map hf
  obtain ⟨alone, ha, -⟩ := eq_ok_of_toOption_map ha
  obtain ⟨-, hc, -, -, hlocal⟩ := align_only_moves hp hf
  exact ⟨packed, flat, alone, hp, hf, ha, hpo, hfo, hc,
    hlocal true daughterAlone alone ha 1 0 _ rfl rfl (by decide)⟩

end Layout

end Pedigree
