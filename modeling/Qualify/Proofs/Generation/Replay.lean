import Qualify.Proofs.Generation.Convergence

namespace Qualify

namespace Gen

variable {α β : Type}

end Gen

def Body.Reaches (body : Body) (b : BlockId) : Prop :=
  Relation.ReflTransGen (fun a next => next ∈ body.successors a) body.entry b

theorem Body.successors_eq {body : Body} {b : BlockId} {block : Block}
    (h : body.blocks[b]? = some block) :
    body.successors b = block.terminator.successors := by
  simp only [successors, h]

namespace MethodContext

variable {c : MethodContext} {P : Event → Prop} {s s' : FlowState} {b : BlockId}
  {rest : List BlockId} {k : Nat}
  {input : FlowStore Location}

section Entering

variable {stores : List (FlowStore Location)} {st : Merges × List (Shape Location)}

end Entering

/-- What holds of a flow state throughout: edges are those of the body, only blocks that are reached
are read, and with the shapes that were merged where they start. -/
structure Traced (c : MethodContext) (s : FlowState) : Prop where
  edges : ∀ a x store, s.edges.lookup (a, x) = some store → x ∈ c.body.successors a
  reached : ∀ x, (s.inputs.getD x none).isSome = true → c.body.Reaches x
  merged : ∀ x input, s.inputs.getD x none = some input →
    ∀ name shape, ((x, name), shape) ∈ s.merges → input.get? name = some shape

/-- A visit leaves the block to its successors only. -/
theorem visit_edges {predecessors : Array (List BlockId)}
    (hread : (c.visit predecessors s b).Reads P s') {a x : BlockId} {store : FlowStore Location}
    (h : s'.edges.lookup (a, x) = some store) :
    s.edges.lookup (a, x) = some store ∨ x ∈ c.body.successors a := by
  simp only [visit, Gen.reads_bind] at hread
  obtain ⟨⟨input, ms⟩, -, hread⟩ := hread
  split_ifs at hread with hsame
  · obtain rfl := Gen.reads_pure.mp hread
    exact .inl h
  · simp only [Gen.reads_bind, Gen.reads_pure] at hread
    obtain ⟨outs, htransfer, rfl⟩ := hread
    obtain ⟨block, hblock, hnodup, htargets, -⟩ := transfer_targets htransfer
    by_cases hnew : a = b ∧ x ∈ outs.map (·.1)
    · obtain ⟨rfl, hx⟩ := hnew
      exact .inr (Body.successors_eq hblock ▸ (htargets x).mp hx)
    · rw [(lookup_edges_foldl_leave hnodup _).1 (a, x) fun ha hx => hnew ⟨ha, hx⟩] at h
      exact .inl h

/-- A waiting block is reached, because something enters it. -/
theorem Traced.reaches_of_waiting (h : c.Traced s) (hs : c.Settling P s)
    (hread : ∀ a x store, s.edges.lookup (a, x) = some store → (s.inputs.getD a none).isSome = true)
    (hb : b ∈ s.waiting) : c.body.Reaches b := by
  obtain ⟨store, hstore⟩ := List.exists_mem_of_ne_nil _ (hs.waiting b hb)
  obtain ⟨a, -, hedge⟩ | ⟨rfl, -⟩ := mem_incoming.mp hstore
  · exact (h.reached a (hread a b store hedge)).tail (h.edges a b store hedge)
  · exact .refl

theorem Traced.visit {l : Ledger} (h : c.Traced s) (hs : c.Settling P s)
    (hbalances : c.Balances s l k) (hwaiting : s.waiting = b :: rest)
    (hread : (c.visit c.body.predecessors { s with waiting := rest } b).Reads P s') :
    c.Traced s' := by
  obtain ⟨input, hv⟩ := visit_cases hs hbalances.nodup hwaiting hread
  have hb : b ∈ s.waiting := hwaiting ▸ List.mem_cons_self
  have hinputs (x : BlockId) : s'.inputs.getD x none = if x = b then some input
      else s.inputs.getD x none := by
    obtain ⟨hsame, hinputs, -⟩ | hr := hv.cases
    · rw [hinputs]
      split_ifs with hx
      · rw [hx, hsame]
      · rfl
    · exact hr.inputs x
  refine ⟨fun a x store hedge => ?_, fun x hx => ?_, fun x old hold name shape hmem => ?_⟩
  · exact (visit_edges hread hedge).elim (h.edges a x store) id
  · rw [hinputs] at hx
    split_ifs at hx with hxb
    · exact hxb ▸ h.reaches_of_waiting hs hbalances.edges hb
    · exact h.reached x hx
  · rw [hinputs] at hold
    split_ifs at hold with hxb
    · obtain rfl := Option.some.inj hold
      obtain ⟨store, hstore⟩ := List.exists_mem_of_ne_nil _ (hs.waiting b hb)
      exact (hv.overlays store hstore name).1 shape (hxb ▸ hmem)
    · exact h.merged x old hold name shape ((hv.merges.mem_iff hxb name shape).mp hmem)

section Finished

variable (hresult : c.fixpoint.result = .ok s)

include hresult

end Finished

end MethodContext

end Qualify
