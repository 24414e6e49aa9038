import Tracery.Proofs.Drawing.Simulation

/-! Calls in another order. The attributes of a node may be set in any order; everything
else has its place. -/

namespace Tracery

namespace Call

def setsAttribute : Call → Bool
  | .setAttribute .. => true
  | _ => false

/-- Calls that differ in the order in which the attributes of a node are set, and in
nothing else. -/
inductive Rearranged : List Call → List Call → Prop
  | nil : Rearranged [] []
  | cons (call : Call) {calls others : List Call} :
      Rearranged calls others → Rearranged (call :: calls) (call :: others)
  | swap (node : Nat) (name value name' value' : String) (calls : List Call) :
      Rearranged
        (.setAttribute node name value :: .setAttribute node name' value' :: calls)
        (.setAttribute node name' value' :: .setAttribute node name value :: calls)
  | trans {calls others more : List Call} :
      Rearranged calls others → Rearranged others more → Rearranged calls more

namespace Rearranged

variable {calls others : List Call}

theorem refl (calls : List Call) : Rearranged calls calls := by
  induction calls with
  | nil => exact .nil
  | cons call rest ih => exact .cons call ih

theorem perm (same : Rearranged calls others) : calls.Perm others := by
  induction same with
  | nil => exact .nil
  | cons call _ ih => exact .cons call ih
  | swap node name value name' value' calls => exact .swap _ _ _
  | trans _ _ first second => exact first.trans second

theorem length_eq (same : Rearranged calls others) : calls.length = others.length :=
  same.perm.length_eq

theorem filter_eq (same : Rearranged calls others) :
    calls.filter (!·.setsAttribute) = others.filter (!·.setsAttribute) := by
  induction same with
  | nil => rfl
  | cons call _ ih => simp only [List.filter_cons, ih]
  | swap => rfl
  | trans _ _ first second => exact first.trans second

theorem append_right (same : Rearranged calls others) (rest : List Call) :
    Rearranged (calls ++ rest) (others ++ rest) := by
  induction same with
  | nil => exact refl rest
  | cons call _ ih => exact .cons call ih
  | swap => exact .swap ..
  | trans _ _ first second => exact first.trans second

theorem append_left (first : List Call) (same : Rearranged calls others) :
    Rearranged (first ++ calls) (first ++ others) := by
  induction first with
  | nil => exact same
  | cons call rest ih => exact .cons call ih

theorem append {more rest : List Call} (same : Rearranged calls others)
    (behind : Rearranged more rest) : Rearranged (calls ++ more) (others ++ rest) :=
  (same.append_right more).trans (behind.append_left others)

theorem of_perm (node : Nat) {entries others : List (String × String)}
    (perm : entries.Perm others) :
    Rearranged (entries.map fun (name, value) => .setAttribute node name value)
      (others.map fun (name, value) => .setAttribute node name value) := by
  induction perm with
  | nil => exact .nil
  | cons entry _ ih => exact .cons _ ih
  | swap => exact .swap ..
  | trans _ _ first second => exact first.trans second

end Rearranged
end Call

namespace Transcript

def Abreast (start t u : Transcript) : Prop :=
  ∃ calls others nodes, Call.Rearranged calls others ∧
    t = start.extend calls nodes ∧ u = start.extend others nodes

namespace Abreast

variable {start t u : Transcript}

theorem refl (start : Transcript) : Abreast start start start :=
  ⟨[], [], 0, .nil, by simp, by simp⟩

theorem nextNode_eq (abreast : Abreast start t u) : t.nextNode = u.nextNode := by
  obtain ⟨calls, others, nodes, -, rfl, rfl⟩ := abreast
  rfl

theorem extend (abreast : Abreast start t u) {calls others : List Call}
    (same : Call.Rearranged calls others) (nodes : Nat) :
    Abreast start (t.extend calls nodes) (u.extend others nodes) := by
  obtain ⟨before, ahead, first, known, rfl, rfl⟩ := abreast
  exact ⟨before ++ calls, ahead ++ others, first + nodes, known.append same,
    by simp, by simp⟩

theorem write (abreast : Abreast start t u) (call : Call) :
    Abreast start (t.write call) (u.write call) := by
  rw [write_eq_extend, write_eq_extend]
  exact abreast.extend (.refl [call]) 0

end Abreast

theorem simulation_abreast (start : Transcript) :
    Backend.Simulation (Abreast start) List.Perm where
  create := by
    intro t u abreast kind
    rw [create_eq_extend, create_eq_extend, abreast.nextNode_eq]
    exact ⟨rfl, abreast.extend (.refl _) 1⟩
  setAttributes := by
    intro t u abreast node entries others perm
    rw [setAttributes_eq_extend, setAttributes_eq_extend]
    exact abreast.extend (.of_perm node perm) 0
  append := fun abreast parent child => abreast.write (.append parent child)
  setText := fun abreast node content => abreast.write (.setText node content)
  setStyle := fun abreast node property value => abreast.write (.setStyle node property value)

end Transcript
end Tracery
