import EstarGo.Lib.ThreadPool

/-!
# Pools seen through a map

A program with more control points than another is often the same to whoever
does not see the difference.  `Pool.map` forgets it, `total_map` says what the
threads hold as seen, and `Program.map_step` is the projection rule: where each
step of a thread is seen as a step of the other program, or is not seen at all,
so is each step of the pool.

The rule carries invariants of the smaller program over to the larger one: what
every step of the smaller one keeps is kept, as seen, by every step of the
larger.  It is used in this direction only, so nothing is asked about the steps
that the smaller program could take and the larger one cannot.
-/

namespace Verif

universe u v w

variable {σ σ' : Type u} {π π' : Type v} {α β : Type w}

/-- A pool as seen through its shared state and its threads.  The threads keep
their numbers. -/
def Pool.map (f : σ → σ') (g : π → π') (s : Pool σ π) : Pool σ' π' where
  shared := f s.shared
  threads := s.threads.map g

/-- What the threads hold as seen is a total of the threads themselves. -/
theorem Pool.total_map {M : Type*} [AddCommMonoid M] (f : σ → σ') (g : π → π') (w : π' → M)
    (s : Pool σ π) : Pool.total w (s.map f g) = Pool.total (fun pc => w (g pc)) s := by
  rw [Pool.total, Pool.total, Pool.map, List.map_map]
  rfl

/-- **The projection rule.**  A step of a thread is either not seen, when it
changes nothing in view and starts no thread, or it is seen as a step of the
other program, with a choice that `R` relates to its own. -/
theorem Program.map_step {P : Program σ π α} {Q : Program σ' π' β} (f : σ → σ') (g : π → π')
    (R : π → α → β → Prop)
    (seen : ∀ sh pc a sh' pc' new, P sh pc a = some (sh', pc', new) →
      (f sh' = f sh ∧ g pc' = g pc ∧ new = []) ∨
        ∃ b, R pc a b ∧ Q (f sh) (g pc) b = some (f sh', g pc', new.map g))
    {s t : Pool σ π} {l : ℕ × α} (h : P.machine.step s l = some t) :
    t.map f g = s.map f g ∨ ∃ pc b, s.threads[l.1]? = some pc ∧ R pc l.2 b ∧
      Q.machine.step (s.map f g) (l.1, b) = some (t.map f g) := by
  obtain ⟨pc, hpc, h⟩ := Option.bind_eq_some_iff.mp h
  obtain ⟨⟨sh, pc', new⟩, hstep, rfl⟩ := Option.map_eq_some_iff.mp h
  have here : (s.map f g).threads[l.1]? = some (g pc) := by
    simp only [Pool.map, List.getElem?_map, hpc, Option.map_some]
  rcases seen s.shared pc l.2 sh pc' new hstep with ⟨hf, hg, rfl⟩ | ⟨b, hb, hstep'⟩
  · refine .inl ?_
    obtain ⟨hlt, same⟩ := List.getElem?_eq_some_iff.mp here
    simp only [Pool.map, List.append_nil, List.map_set, hf, hg, ← same]
    exact congrArg _ (List.set_getElem_self hlt)
  · refine .inr ⟨pc, b, hpc, hb, ?_⟩
    simp only [Program.machine, here, Option.bind_some]
    rw [show (s.map f g).shared = f s.shared from rfl, hstep', Option.map_some]
    simp only [Pool.map, List.map_append, List.map_set]

end Verif
