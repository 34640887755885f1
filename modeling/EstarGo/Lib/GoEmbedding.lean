import EstarGo.Lib.GoRules

/-!
# A board inside a larger one

A program may index the points of its board by a larger type, where the other
indices are not adjacent to any point.  The rules see only the points: an
embedding of the board carries legal moves to legal moves, and leaves what is
outside of it alone.

## Main definitions

* `Embeds` — a graph as a part of another one that has no edges to the rest.
* `Position.Inside` — a position on the part, seen on the whole.

## Main results

* `Embeds.mem_group_iff`, `Embeds.mem_captured_iff`, `Embeds.mem_suicide_iff`:
  what the rules compute from the stones lies on the part, and is the image of
  what they compute there.
* `Position.legal_iff_of_inside`, `Position.inside_play`: an embedding of boards
  carries moves to moves.

## Design notes

An isomorphism would not do: an array with a margin has indices that are no
points, and nothing is promised of the stones there but that no point is next to
them.  So each notion of the rules gets two lemmas, one that says where its
members lie and one for the members that are images.
-/

namespace Verif.Go

universe u v w

variable {V : Type u} {W : Type v} {κ : Type w}

/-- The points of one graph inside another, with all their neighbours.  No point
has a neighbour outside, so nothing that happens there reaches the board. -/
structure Embeds (adj : V → V → Prop) (adj' : W → W → Prop) (f : V → W) : Prop where
  injective : Function.Injective f
  adj_iff : ∀ v w, adj' (f v) w ↔ ∃ u, f u = w ∧ adj v u

namespace Embeds

variable {adj : V → V → Prop} {adj' : W → W → Prop} {f : V → W} {other : κ → κ}
  {s : V → Option κ} {t : W → Option κ} {k : κ} {u v : V} {x : W}
  (h : Embeds adj adj' f) (ht : ∀ v, t (f v) = s v)

/-- Images are adjacent exactly where their points are. -/
theorem adj_map (h : Embeds adj adj' f) : adj' (f v) (f u) ↔ adj v u := by
  rw [h.adj_iff]
  constructor
  · rintro ⟨w, hw, hadj⟩
    exact h.injective hw ▸ hadj
  · exact fun hadj => ⟨u, rfl, hadj⟩

include h

theorem forall_adj {P : W → Prop} : (∀ e, adj' (f u) e → P e) ↔ ∀ e, adj u e → P (f e) := by
  constructor
  · exact fun hP e hadj => hP (f e) (h.adj_map.mpr hadj)
  · intro hP e hadj
    obtain ⟨e', rfl, hnext⟩ := (h.adj_iff u e).mp hadj
    exact hP e' hnext

include ht

/-- The group of a point lies on the board, and is the image of its group
there. -/
theorem mem_group_iff : x ∈ group adj' t k (f v) ↔ ∃ u ∈ group adj s k v, f u = x := by
  constructor
  · intro mem
    induction mem with
    | refl => exact ⟨v, self_mem_group, rfl⟩
    | tail _ hlink ih =>
        obtain ⟨u, hu, rfl⟩ := ih
        obtain ⟨w, rfl, hadj⟩ := (h.adj_iff _ _).mp hlink.1
        refine ⟨w, Relation.ReflTransGen.tail hu ⟨hadj, ?_, ?_⟩, rfl⟩
        · exact (ht u).symm.trans hlink.2.1
        · exact (ht w).symm.trans hlink.2.2
  · rintro ⟨u, hu, rfl⟩
    refine Relation.ReflTransGen.lift (p := Linked adj' t k) f (fun a b hab => ?_) _ _ hu
    exact ⟨h.adj_map.mpr hab.1, (ht a).trans hab.2.1, (ht b).trans hab.2.2⟩

/-- So a group breathes in the larger graph where it breathes on the board. -/
theorem hasLiberty_iff : HasLiberty adj' t k (f v) ↔ HasLiberty adj s k v := by
  unfold HasLiberty
  constructor
  · rintro ⟨x, hx, e, hadj, hfree⟩
    obtain ⟨u, hu, rfl⟩ := (h.mem_group_iff ht).mp hx
    obtain ⟨e', rfl, hnext⟩ := (h.adj_iff _ _).mp hadj
    exact ⟨u, hu, e', hnext, (ht e').symm.trans hfree⟩
  · rintro ⟨u, hu, e, hadj, hfree⟩
    exact ⟨f u, (h.mem_group_iff ht).mpr ⟨u, hu, rfl⟩, f e, h.adj_map.mpr hadj, (ht e).trans hfree⟩

theorem surrounded_iff : surrounded adj' other t k (f v) ↔ surrounded adj other s k v := by
  unfold surrounded
  rw [h.forall_adj]
  simp only [ht]

omit ht h in
theorem place_map (inj : Function.Injective f) (ht : ∀ v, t (f v) = s v) (k : κ) (v u : V) :
    place t k (f v) (f u) = place s k v u := by
  by_cases huv : u = v
  · rw [huv, place_self, place_self]
  · rw [place_of_ne huv, place_of_ne (inj.ne huv), ht]

omit ht h in
theorem remove_map {a : Set V} {b : Set W} (ht : ∀ v, t (f v) = s v)
    (hset : ∀ u, f u ∈ b ↔ u ∈ a) (u : V) : remove b t (f u) = remove a s u := by
  by_cases mem : u ∈ a
  · rw [remove_of_mem mem, remove_of_mem ((hset u).mpr mem)]
  · rw [remove_of_not_mem mem, remove_of_not_mem fun hb => mem ((hset u).mp hb), ht]

/-- The captured stones lie on the board, since the neighbours of a point do. -/
theorem mem_captured_iff :
    x ∈ captured adj' other t k (f v) ↔ ∃ u ∈ captured adj other s k v, f u = x := by
  have hplace := place_map (f := f) h.injective ht k v
  constructor
  · rintro ⟨d, hadj, hcolor, mem, hlib⟩
    obtain ⟨d, rfl, hnext⟩ := (h.adj_iff _ _).mp hadj
    obtain ⟨u, hu, rfl⟩ := (h.mem_group_iff hplace).mp mem
    exact ⟨u, ⟨d, hnext, (hplace d).symm.trans hcolor, hu,
      fun hl => hlib ((h.hasLiberty_iff hplace).mpr hl)⟩, rfl⟩
  · rintro ⟨u, ⟨d, hadj, hcolor, mem, hlib⟩, rfl⟩
    exact ⟨f d, h.adj_map.mpr hadj, (hplace d).trans hcolor,
      (h.mem_group_iff hplace).mpr ⟨u, mem, rfl⟩, fun hl => hlib ((h.hasLiberty_iff hplace).mp hl)⟩

theorem map_mem_captured_iff :
    f u ∈ captured adj' other t k (f v) ↔ u ∈ captured adj other s k v := by
  rw [h.mem_captured_iff ht]
  constructor
  · rintro ⟨w, hw, hwu⟩
    exact h.injective hwu ▸ hw
  · exact fun hu => ⟨u, hu, rfl⟩

theorem afterCapture_map (k : κ) (v u : V) :
    afterCapture adj' other t k (f v) (f u) = afterCapture adj other s k v u :=
  remove_map (place_map h.injective ht k v) (fun _ => h.map_mem_captured_iff ht) u

theorem mem_suicide_iff :
    x ∈ suicide adj' other t k (f v) ↔ ∃ u ∈ suicide adj other s k v, f u = x := by
  have hafter (u : V) :
      afterCapture adj' other t k (f v) (f u) = afterCapture adj other s k v u :=
    h.afterCapture_map ht k v u
  show _ ∧ _ ↔ ∃ u, (_ ∧ _) ∧ _
  rw [h.mem_group_iff hafter, h.hasLiberty_iff hafter]
  constructor
  · rintro ⟨⟨u, hu, rfl⟩, hlib⟩
    exact ⟨u, ⟨hu, hlib⟩, rfl⟩
  · rintro ⟨u, ⟨hu, hlib⟩, rfl⟩
    exact ⟨⟨u, hu, rfl⟩, hlib⟩

theorem map_mem_suicide_iff :
    f u ∈ suicide adj' other t k (f v) ↔ u ∈ suicide adj other s k v := by
  rw [h.mem_suicide_iff ht]
  constructor
  · rintro ⟨w, hw, hwu⟩
    exact h.injective hwu ▸ hw
  · exact fun hu => ⟨u, hu, rfl⟩

/-- A single captured stone is the image of one, so both boards have the same
ko. -/
theorem captured_eq_singleton_iff :
    captured adj' other t k (f v) = {f u} ↔ captured adj other s k v = {u} := by
  simp only [Set.ext_iff, Set.mem_singleton_iff, h.mem_captured_iff ht]
  constructor
  · intro hall w
    refine Iff.trans ⟨fun hw => ⟨w, hw, rfl⟩, ?_⟩ ((hall (f w)).trans h.injective.eq_iff)
    rintro ⟨w', hw', hww⟩
    exact h.injective hww ▸ hw'
  · intro hall x
    constructor
    · rintro ⟨w, hw, rfl⟩
      rw [(hall w).mp hw]
    · rintro rfl
      exact ⟨u, (hall u).mpr rfl, rfl⟩

end Embeds

variable {adj : V → V → Prop} {adj' : W → W → Prop} {f : V → W} {other : κ → κ}

namespace Position

variable {p : Position V κ} {q : Position W κ} {k : κ} {v : V}

/-- The position inside the larger board.  Of the indices that are no points it
says nothing. -/
structure Inside (f : V → W) (p : Position V κ) (q : Position W κ) : Prop where
  stone : ∀ v, q.stone (f v) = p.stone v
  ko : ∀ v k, q.ko (f v) k ↔ p.ko v k

/-- **Legality** is that of the board, for the moves on its points. -/
theorem legal_iff_of_inside (h : Embeds adj adj' f) (hpos : Inside f p q) :
    q.legal adj' other k (f v) ↔ p.legal adj other k v := by
  have hcaptured : (captured adj' other q.stone k (f v)).Nonempty ↔
      (captured adj other p.stone k v).Nonempty := by
    constructor
    · rintro ⟨x, hx⟩
      obtain ⟨u, hu, -⟩ := (h.mem_captured_iff hpos.stone).mp hx
      exact ⟨u, hu⟩
    · rintro ⟨u, hu⟩
      exact ⟨f u, (h.map_mem_captured_iff hpos.stone).mpr hu⟩
  unfold legal
  rw [hpos.stone, hpos.ko, h.surrounded_iff hpos.stone, hcaptured]

/-- **Moves** are those of the board: the position after one is inside the
larger board again. -/
theorem inside_play (h : Embeds adj adj' f) (hpos : Inside f p q) (k : κ) (v : V) :
    Inside f (p.play adj other k v) (q.play adj' other k (f v)) := by
  constructor
  case stone =>
    intro u
    exact Embeds.remove_map (h.afterCapture_map hpos.stone k v)
      (fun _ => h.map_mem_suicide_iff hpos.stone) u
  case ko =>
    intro u c
    unfold play
    simp only [h.surrounded_iff hpos.stone, h.captured_eq_singleton_iff hpos.stone]

end Position

end Verif.Go
