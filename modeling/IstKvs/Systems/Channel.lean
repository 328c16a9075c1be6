import Mathlib.Data.List.SplitLengths

/-! Blocks sent through a first-in first-out channel. The sender puts symbols into
the queue in pieces of any size, the receiver takes them out in pieces of any other
sizes and delivers a block whenever it has as many symbols as the block was long.
Nothing here depends on what the symbols are. -/

namespace IstKvs.Systems

variable {α : Type*}

/-- `unsent` are the symbols of all blocks still to be put, `buffer` those taken for the
block that comes next after the delivered ones. -/
@[ext]
structure Channel (α : Type*) where
  unsent : List α
  queue : List α
  buffer : List α
  delivered : List (List α)

namespace Channel

def initial (blocks : List (List α)) : Channel α := ⟨blocks.flatten, [], [], []⟩

/-- One move of either side. -/
inductive Step (blocks : List (List α)) (c : Channel α) : Channel α → Prop
  | put (n : ℕ) :
      Step blocks c { c with unsent := c.unsent.drop n, queue := c.queue ++ c.unsent.take n }
  | take (n : ℕ) :
      Step blocks c { c with queue := c.queue.drop n, buffer := c.buffer ++ c.queue.take n }
  | deliver (h : (blocks.map List.length)[c.delivered.length]? = some c.buffer.length) :
      Step blocks c { c with buffer := [], delivered := c.delivered ++ [c.buffer] }

/-- No symbol is lost, doubled or moved, and delivered blocks have the right lengths. -/
structure Inv (blocks : List (List α)) (c : Channel α) : Prop where
  symbols : c.delivered.flatten ++ (c.buffer ++ (c.queue ++ c.unsent)) = blocks.flatten
  lengths : c.delivered.map List.length <+: blocks.map List.length

theorem inv_initial (blocks : List (List α)) : Inv blocks (initial blocks) :=
  ⟨rfl, List.nil_prefix⟩

theorem prefix_concat {xs ys : List α} {x : α} (h : xs <+: ys) (hx : ys[xs.length]? = some x) :
    xs ++ [x] <+: ys := by
  obtain ⟨zs, rfl⟩ := h
  rw [List.getElem?_append_right le_rfl, Nat.sub_self] at hx
  cases zs with
  | nil => cases hx
  | cons z zs =>
    obtain rfl := Option.some.inj hx
    exact ⟨zs, by simp⟩

theorem Inv.step {blocks : List (List α)} {c c' : Channel α} (h : Inv blocks c)
    (hs : Step blocks c c') : Inv blocks c' := by
  cases hs with
  | put n =>
    refine ⟨?_, h.lengths⟩
    rw [← h.symbols, List.append_assoc, List.take_append_drop]
  | take n =>
    refine ⟨?_, h.lengths⟩
    rw [← h.symbols, List.append_assoc, ← List.append_assoc (c.queue.take n),
      List.take_append_drop]
  | deliver hlen =>
    refine ⟨?_, ?_⟩
    · rw [← h.symbols]
      simp
    · rw [List.map_append, List.map_singleton]
      exact prefix_concat h.lengths (by rw [List.length_map]; exact hlen)

/-- Blocks are determined by their concatenation and their lengths. -/
theorem splitLengths_flatten (bs : List (List α)) (rest : List α) :
    (bs.map List.length).splitLengths (bs.flatten ++ rest) = bs := by
  induction bs with
  | nil => rfl
  | cons b bs ih =>
    rw [List.map_cons, List.splitLengths_cons, List.flatten_cons, List.append_assoc,
      List.take_left, List.drop_left, ih]

/-- What has been delivered is the first of the blocks. -/
theorem Inv.delivered_isPrefix {blocks : List (List α)} {c : Channel α} (h : Inv blocks c) :
    c.delivered <+: blocks := by
  obtain ⟨ns, hns⟩ := h.lengths
  have hk : (blocks.take c.delivered.length).map List.length = c.delivered.map List.length := by
    rw [List.map_take, ← hns, List.take_left' (List.length_map _)]
  have hblocks : blocks.flatten = (blocks.take c.delivered.length).flatten ++
      (blocks.drop c.delivered.length).flatten := by
    rw [← List.flatten_append, List.take_append_drop]
  have he : c.delivered = blocks.take c.delivered.length := by
    rw [← splitLengths_flatten c.delivered (c.buffer ++ (c.queue ++ c.unsent)), h.symbols, ← hk,
      hblocks, splitLengths_flatten]
    simp
  rw [he]
  exact List.take_prefix ..

end Channel

end IstKvs.Systems
