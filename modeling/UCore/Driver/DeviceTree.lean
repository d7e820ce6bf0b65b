import UCore.Driver.Dtb

/-!
Contract: device trees, and the memory that `extract_memory_info` finds in them.

Owns:
- well-formed device trees and how they are flattened;
- the first memory node of a tree;
- exactly when the walk answers the memory of that node, and that it always returns.

Does not own: the walk, which is in `Driver.Dtb`.
-/

set_option autoImplicit false

namespace UCore.Driver

/-- What stands in a node, or in the whole block, one after the other. -/
inductive Items
  | done
  | nop (rest : Items)
  | prop (nameoff : Nat) (value : List UInt8) (rest : Items)
  | child (name : List UInt8) (items : Items) (rest : Items)

namespace Items

def flatten : Items → List Token
  | done => []
  | nop rest => .nop :: rest.flatten
  | prop nameoff value rest => .prop nameoff value :: rest.flatten
  | child name items rest => .beginNode name :: (items.flatten ++ .endNode :: rest.flatten)

def NoProps : Items → Prop
  | done => True
  | nop rest => rest.NoProps
  | prop _ _ _ => False
  | child _ _ rest => rest.NoProps

/-- The properties of a node stand before its children. -/
def PropsFirst : Items → Prop
  | done => True
  | nop rest => rest.PropsFirst
  | prop _ _ rest => rest.PropsFirst
  | child _ items rest => items.PropsFirst ∧ rest.NoProps ∧ rest.PropsFirst

def OnlyNops : Items → Prop
  | done => True
  | nop rest => rest.OnlyNops
  | _ => False

/-- There is one root, and nothing but `FDT_NOP` beside it. -/
def OneRoot : Items → Prop
  | nop rest => rest.OneRoot
  | child _ _ rest => rest.OnlyNops
  | _ => False

end Items

/-- The blocks are those of a device tree. -/
structure WellFormed (dtb : Dtb) (tree : Items) : Prop where
  block : dtb.structBlock = encodeAll tree.flatten ++ be32 fdtEnd
  tokens : ∀ token ∈ tree.flatten, token.Ok dtb.stringsBlock
  propsFirst : tree.PropsFirst
  oneRoot : tree.OneRoot

/-! ## The first memory node -/

/-- `memory`, or `memory@` with an address. -/
def IsMemory (name : List UInt8) : Prop :=
  name = memoryName ∨ (memoryName ++ [64]).isPrefixOf name = true

instance (name : List UInt8) : Decidable (IsMemory name) := inferInstanceAs (Decidable (_ ∨ _))

/-- At least one entry, of two address cells and two size cells. -/
def TwoCells (value : List UInt8) : Prop := value ≠ [] ∧ value.length % 16 = 0

instance (value : List UInt8) : Decidable (TwoCells value) := inferInstanceAs (Decidable (_ ∧ _))

/-- The `reg` property of a node. -/
def regOf (strings : List UInt8) : Items → Option (List UInt8)
  | .done => none
  | .nop rest => regOf strings rest
  | .prop nameoff value rest =>
      if propName strings nameoff = regName ∧ TwoCells value then some value else regOf strings rest
  | .child _ _ rest => regOf strings rest

/-- The `reg` property of the first memory node that has one. -/
def firstMemory (strings : List UInt8) : Items → Option (List UInt8)
  | .done => none
  | .nop rest => firstMemory strings rest
  | .prop _ _ rest => firstMemory strings rest
  | .child name items rest =>
      (if IsMemory name then regOf strings items else none) <|>
        firstMemory strings items <|> firstMemory strings rest

/-! ## Sightings -/

/-- A node whose name starts with `memory` has begun, and no node has ended since. -/
def Entered (before : List Token) : Prop :=
  ∃ xs name ys, before = xs ++ .beginNode name :: ys ∧ memoryName.isPrefixOf name = true ∧
    Token.endNode ∉ ys

/-- A `reg` property of at least 16 bytes that stands there. -/
structure Sighting (strings : List UInt8) (before : List Token) (nameoff : Nat)
    (value : List UInt8) : Prop where
  entered : Entered before
  isReg : propName strings nameoff = regName
  long : 16 ≤ value.length

/-- The first one. -/
def FirstSighting (strings : List UInt8) (tokens : List Token) (value : List UInt8) : Prop :=
  ∃ before nameoff after, tokens = before ++ .prop nameoff value :: after ∧
    Sighting strings before nameoff value ∧
    ∀ xs nameoff' value' ys, before = xs ++ .prop nameoff' value' :: ys →
      ¬ Sighting strings xs nameoff' value'

variable {strings value : List UInt8} {before tokens : List Token} {nameoff : Nat}

theorem Entered.append (entered : Entered before) (front : List Token) :
    Entered (front ++ before) := by
  obtain ⟨xs, name, ys, rfl, isPrefix, open'⟩ := entered
  exact ⟨front ++ xs, name, ys, (List.append_assoc ..).symm, isPrefix, open'⟩

/-- What one more token does. -/
theorem entered_concat (before : List Token) (token : Token) :
    Entered (before ++ [token]) ↔ (Entered before ∧ token ≠ .endNode) ∨
      ∃ name, token = .beginNode name ∧ memoryName.isPrefixOf name = true := by
  constructor
  · rintro ⟨xs, name, ys, split, isPrefix, open'⟩
    rcases List.eq_nil_or_concat ys with rfl | ⟨front, last, isConcat⟩
    · obtain ⟨_, same⟩ := List.append_inj' split rfl
      exact Or.inr ⟨name, (List.cons.inj same).1, isPrefix⟩
    · rw [List.concat_eq_append] at isConcat
      subst isConcat
      rw [← List.cons_append, ← List.append_assoc] at split
      obtain ⟨rfl, same⟩ := List.append_inj' split rfl
      obtain rfl := (List.cons.inj same).1
      have apart := not_or.mp (mt List.mem_append.mpr open')
      exact Or.inl ⟨⟨xs, name, front, rfl, isPrefix, apart.1⟩,
        fun isEnd => apart.2 (isEnd ▸ List.mem_singleton_self _)⟩
  · rintro (⟨⟨xs, name, ys, rfl, isPrefix, open'⟩, notEnd⟩ | ⟨name, rfl, isPrefix⟩)
    · refine ⟨xs, name, ys ++ [token], ?_, isPrefix, fun member => ?_⟩
      · rw [List.append_assoc]
        rfl
      · rcases List.mem_append.mp member with inOld | isNew
        · exact open' inOld
        · exact notEnd (List.mem_singleton.mp isNew).symm
    · exact ⟨before, name, [], rfl, isPrefix, List.not_mem_nil⟩

/-- The walk finds the first sighting. -/
theorem scan_first (before : List Token) : ∀ (past after : List Token) (inMemoryNode : Bool),
    (inMemoryNode = true ↔ Entered past) → Sighting strings (past ++ before) nameoff value →
    (∀ xs nameoff' value' ys, before = xs ++ .prop nameoff' value' :: ys →
      ¬ Sighting strings (past ++ xs) nameoff' value') →
    scan strings (before ++ .prop nameoff value :: after) inMemoryNode = some (pairOf value) := by
  induction before with
  | nil =>
      intro past after inMemoryNode flag sighting _
      rw [List.append_nil] at sighting
      exact if_pos ⟨flag.mpr sighting.entered, sighting.isReg, sighting.long⟩
  | cons token before inductionHypothesis =>
      intro past after inMemoryNode flag sighting first
      have goesOn : ∀ flag' : Bool, (flag' = true ↔ Entered (past ++ [token])) →
          scan strings (before ++ .prop nameoff value :: after) flag' = some (pairOf value) := by
        intro flag' same
        refine inductionHypothesis (past ++ [token]) after flag' same ?_ fun xs off value' ys split => ?_
        · rwa [List.append_assoc]
        · rw [List.append_assoc]
          exact first (token :: xs) off value' ys (by rw [split]; rfl)
      have more := entered_concat past token
      cases token with
      | beginNode name =>
          refine goesOn (inMemoryNode || memoryName.isPrefixOf name) ?_
          rw [more, Bool.or_eq_true, flag]
          refine or_congr (and_iff_left nofun).symm ⟨fun isPrefix => ⟨name, rfl, isPrefix⟩, ?_⟩
          rintro ⟨name', ⟨⟩, isPrefix⟩
          exact isPrefix
      | endNode =>
          refine goesOn false (iff_of_false Bool.false_ne_true ?_)
          rw [more]
          rintro (⟨_, notEnd⟩ | ⟨name, isBegin, _⟩)
          · exact notEnd rfl
          · cases isBegin
      | nop =>
          refine goesOn inMemoryNode ?_
          rw [more, flag]
          refine ⟨fun entered => Or.inl ⟨entered, nofun⟩, ?_⟩
          rintro (⟨entered, _⟩ | ⟨name, isBegin, _⟩)
          · exact entered
          · cases isBegin
      | prop nameoff' value' =>
          have misses : ¬ (inMemoryNode = true ∧ propName strings nameoff' = regName ∧
              16 ≤ value'.length) := by
            rintro ⟨inside, isReg, long⟩
            refine first [] nameoff' value' before rfl ⟨?_, isReg, long⟩
            rw [List.append_nil]
            exact flag.mp inside
          refine (if_neg misses).trans (goesOn inMemoryNode ?_)
          rw [more, flag]
          refine ⟨fun entered => Or.inl ⟨entered, nofun⟩, ?_⟩
          rintro (⟨entered, _⟩ | ⟨name, isBegin, _⟩)
          · exact entered
          · cases isBegin

theorem FirstSighting.scan (first : FirstSighting strings tokens value) :
    scan strings tokens false = some (pairOf value) := by
  obtain ⟨before, nameoff, after, rfl, sighting, none'⟩ := first
  refine scan_first before [] after false (iff_of_false Bool.false_ne_true ?_) sighting none'
  rintro ⟨xs, name, ys, split, _⟩
  exact absurd split.symm (List.append_ne_nil_of_right_ne_nil _ nofun)

/-- Where there is a sighting, there is a first one. -/
theorem exists_firstSighting {after : List Token} (sighting : Sighting strings before nameoff value) :
    ∃ value', FirstSighting strings (before ++ .prop nameoff value :: after) value' := by
  induction bound : before.length using Nat.strong_induction_on generalizing before nameoff value after with
  | _ length inductionHypothesis =>
      by_cases earlier : ∃ xs nameoff' value' ys, before = xs ++ .prop nameoff' value' :: ys ∧
          Sighting strings xs nameoff' value'
      · obtain ⟨xs, nameoff', value', ys, rfl, sighting'⟩ := earlier
        rw [List.append_assoc, List.cons_append]
        refine inductionHypothesis xs.length ?_ sighting' rfl
        rw [← bound, List.length_append, List.length_cons]
        omega
      · exact ⟨value, before, nameoff, after, rfl, sighting, fun xs nameoff' value' ys split sighting' =>
          earlier ⟨xs, nameoff', value', ys, split, sighting'⟩⟩

/-! ## The memory node is sighted -/

theorem TwoCells.long (twoCells : TwoCells value) : 16 ≤ value.length := by
  have positive := List.length_pos_of_ne_nil twoCells.1
  have whole := twoCells.2
  omega

theorem regOf_noProps {items : Items} (noProps : items.NoProps) : regOf strings items = none := by
  induction items with
  | done => rfl
  | nop rest inductionHypothesis => exact inductionHypothesis noProps
  | prop nameoff value rest _ => exact noProps.elim
  | child name items rest _ inductionHypothesis => exact inductionHypothesis noProps

/-- The `reg` property of a node stands before any node ends in it. -/
theorem regOf_flatten {items : Items} (propsFirst : items.PropsFirst)
    (found : regOf strings items = some value) :
    ∃ before nameoff after, items.flatten = before ++ .prop nameoff value :: after ∧
      Token.endNode ∉ before ∧ propName strings nameoff = regName ∧ TwoCells value := by
  induction items with
  | done => cases found
  | nop rest inductionHypothesis =>
      obtain ⟨before, nameoff, after, split, open', isReg⟩ := inductionHypothesis propsFirst found
      refine ⟨.nop :: before, nameoff, after, congrArg _ split, fun member => ?_, isReg⟩
      exact open' ((List.mem_cons.mp member).resolve_left nofun)
  | prop nameoff' value' rest inductionHypothesis =>
      unfold regOf at found
      split_ifs at found with here
      · obtain rfl := Option.some.inj found
        exact ⟨[], nameoff', _, rfl, List.not_mem_nil, here⟩
      · obtain ⟨before, nameoff, after, split, open', isReg⟩ := inductionHypothesis propsFirst found
        refine ⟨.prop nameoff' value' :: before, nameoff, after, congrArg _ split,
          fun member => ?_, isReg⟩
        exact open' ((List.mem_cons.mp member).resolve_left nofun)
  | child name items rest _ _ =>
      have missing : regOf strings rest = none := regOf_noProps propsFirst.2.1
      exact nomatch found.symm.trans missing

theorem IsMemory.isPrefix {name : List UInt8} (isMemory : IsMemory name) :
    memoryName.isPrefixOf name = true := by
  rw [List.isPrefixOf_iff_prefix]
  rcases isMemory with rfl | isPrefix
  · exact List.prefix_refl _
  · exact (List.prefix_append _ _).trans (List.isPrefixOf_iff_prefix.mp isPrefix)

/-- The memory that should be found is sighted. -/
theorem firstMemory_sighted {items : Items} (propsFirst : items.PropsFirst)
    (found : firstMemory strings items = some value) :
    ∃ before nameoff after, items.flatten = before ++ .prop nameoff value :: after ∧
      Sighting strings before nameoff value := by
  have later : ∀ (front : List Token) {tokens : List Token},
      (∃ before nameoff after, tokens = before ++ .prop nameoff value :: after ∧
        Sighting strings before nameoff value) →
      ∃ before nameoff after, front ++ tokens = before ++ .prop nameoff value :: after ∧
        Sighting strings before nameoff value := by
    rintro front tokens ⟨before, nameoff, after, rfl, sighting⟩
    exact ⟨front ++ before, nameoff, after, (List.append_assoc ..).symm,
      sighting.entered.append front, sighting.isReg, sighting.long⟩
  induction items with
  | done => cases found
  | nop rest inductionHypothesis => exact later [.nop] (inductionHypothesis propsFirst found)
  | prop nameoff' value' rest inductionHypothesis =>
      exact later [.prop nameoff' value'] (inductionHypothesis propsFirst found)
  | child name items rest inItems inRest =>
      obtain ⟨itemsFirst, _, restFirst⟩ := propsFirst
      unfold firstMemory at found
      cases here : (if IsMemory name then regOf strings items else none) with
      | some value' =>
          rw [here] at found
          obtain rfl : value' = value := Option.some.inj found
          split_ifs at here with isMemory
          obtain ⟨before, nameoff, after, split, open', isReg, twoCells⟩ :=
            regOf_flatten itemsFirst here
          refine ⟨.beginNode name :: before, nameoff, after ++ .endNode :: rest.flatten, ?_,
            ⟨[], name, before, rfl, isMemory.isPrefix, open'⟩, isReg, twoCells.long⟩
          rw [Items.flatten, split, List.append_assoc]
          rfl
      | none =>
          rw [here] at found
          cases inside : firstMemory strings items with
          | some value' =>
              rw [inside] at found
              obtain rfl : value' = value := Option.some.inj found
              obtain ⟨before, nameoff, after, split, sighting⟩ := inItems itemsFirst inside
              refine ⟨.beginNode name :: before, nameoff, after ++ .endNode :: rest.flatten, ?_,
                sighting.entered.append [.beginNode name], sighting.isReg, sighting.long⟩
              rw [Items.flatten, split, List.append_assoc]
              rfl
          | none =>
              rw [inside] at found
              have behind := later (.beginNode name :: (items.flatten ++ [.endNode]))
                (inRest restFirst found)
              rwa [List.cons_append, List.append_assoc] at behind

/-! ## What is found -/

/-- The walk returns, at the beginning of a token each time. -/
theorem extractMemoryInfo_returns {dtb : Dtb} {tree : Items} (wellFormed : WellFormed dtb tree) :
    ∃ visited, (∃ enough, ∀ fuel, enough ≤ fuel →
        extractMemoryInfo dtb fuel = .ok ⟨scan dtb.stringsBlock tree.flatten false, visited⟩) ∧
      ∀ position ∈ visited, position + 4 ≤ dtb.structBlock.length ∧
        ∃ xs ys, tree.flatten = xs ++ ys ∧ position = (encodeAll xs).length := by
  obtain ⟨visited, returns, boundaries⟩ :=
    extractLoop_tokens tree.flatten [] false [] wellFormed.block rfl wellFormed.tokens
  refine ⟨visited, ⟨tree.flatten.length + 1, fun fuel enough => returns fuel enough⟩,
    fun position member => ?_⟩
  obtain ⟨xs, ys, split, isPosition⟩ := boundaries position member
  rw [List.length_nil, Nat.zero_add] at isPosition
  refine ⟨?_, xs, ys, split, isPosition⟩
  have whole : encodeAll tree.flatten = encodeAll xs ++ encodeAll ys := by
    rw [split, encodeAll, List.flatMap_append]
    rfl
  rw [wellFormed.block, whole, List.length_append, List.length_append, length_be32, isPosition]
  omega

/-- The walk always returns some memory, at the beginning of a token each time and within the block.
It is that of the first memory node exactly where the first `reg` property that the walk takes for
that of a memory node holds the same pair. -/
theorem extract_memory_info_exact {dtb : Dtb} {tree : Items} {value : List UInt8}
    (wellFormed : WellFormed dtb tree) (target : firstMemory dtb.stringsBlock tree = some value) :
    ∃ info visited, (∃ enough, ∀ fuel, enough ≤ fuel →
        extractMemoryInfo dtb fuel = .ok ⟨some info, visited⟩) ∧
      (∀ position ∈ visited, position + 4 ≤ dtb.structBlock.length ∧
        ∃ xs ys, tree.flatten = xs ++ ys ∧ position = (encodeAll xs).length) ∧
      (info = pairOf value ↔ ∀ value', FirstSighting dtb.stringsBlock tree.flatten value' →
        pairOf value' = pairOf value) := by
  obtain ⟨before, nameoff, after, split, sighting⟩ :=
    firstMemory_sighted wellFormed.propsFirst target
  obtain ⟨first, isFirst⟩ := @exists_firstSighting dtb.stringsBlock value before nameoff after sighting
  rw [← split] at isFirst
  obtain ⟨visited, returns, boundaries⟩ := extractMemoryInfo_returns wellFormed
  rw [isFirst.scan] at returns
  refine ⟨pairOf first, visited, returns, boundaries, fun same value' isFirst' => ?_,
    fun all => all first isFirst⟩
  have found := isFirst'.scan
  rw [isFirst.scan] at found
  exact (Option.some.inj found).symm.trans same

/-! ## A misleading node -/

/-- `"reg"` -/
def regStrings : List UInt8 := regName ++ [0]

/-- `memory-controller@0` -/
def controllerName : List UInt8 :=
  memoryName ++ [45, 99, 111, 110, 116, 114, 111, 108, 108, 101, 114, 64, 48]

/-- `memory@80000000` -/
def ramName : List UInt8 := memoryName ++ [64, 56, 48, 48, 48, 48, 48, 48, 48]

/-- An address and a size of two cells each. -/
def regValue (base size : UInt8) : List UInt8 :=
  [0, 0, 0, 0, base, 0, 0, 0, 0, 0, 0, 0, size, 0, 0, 0]

/-- A memory node behind the node of a memory controller. -/
def controllerTree : Items :=
  .child [] (.child controllerName (.prop 0 (regValue 0x10 1) .done)
    (.child ramName (.prop 0 (regValue 0x80 8) .done) .done)) .done

def dtbOf (tree : Items) : Dtb := ⟨encodeAll tree.flatten ++ be32 fdtEnd, regStrings⟩

theorem controllerTree_wellFormed : WellFormed (dtbOf controllerTree) controllerTree where
  block := rfl
  tokens := by decide
  propsFirst := ⟨⟨trivial, trivial, trivial, trivial, trivial⟩, trivial, trivial⟩
  oneRoot := trivial

/-- The name of the controller begins like that of a memory node. -/
theorem extract_memory_info_misled : WellFormed (dtbOf controllerTree) controllerTree ∧
    firstMemory regStrings controllerTree = some (regValue 0x80 8) ∧
    ∃ visited, (∃ enough, ∀ fuel, enough ≤ fuel → extractMemoryInfo (dtbOf controllerTree) fuel =
      .ok ⟨some (pairOf (regValue 0x10 1)), visited⟩) ∧
      pairOf (regValue 0x10 1) ≠ pairOf (regValue 0x80 8) := by
  obtain ⟨visited, returns, _⟩ := extractMemoryInfo_returns controllerTree_wellFormed
  have found : scan regStrings controllerTree.flatten false = some (pairOf (regValue 0x10 1)) := by
    decide
  exact ⟨controllerTree_wellFormed, by decide, visited, found ▸ returns, by decide⟩

/-- `cpus` -/
def cpusName : List UInt8 := [99, 112, 117, 115]

/-- `cpu@0` -/
def cpuName : List UInt8 := [99, 112, 117, 64, 48]

/-- `soc` -/
def socName : List UInt8 := [115, 111, 99]

/-- `uart@10000000` -/
def uartName : List UInt8 := [117, 97, 114, 116, 64, 49, 48, 48, 48, 48, 48, 48, 48]

/-- A memory node behind two nodes that have children with a `reg` property of their own. -/
def boardTree : Items :=
  .child [] (.nop (.child cpusName (.child cpuName (.prop 0 [0, 0, 0, 0] .done) .done)
    (.child socName (.nop (.child uartName (.prop 0 (regValue 0x10 1) .done) .done))
      (.nop (.child ramName (.nop (.prop 0 (regValue 0x80 8) .done)) .done))))) .done

theorem boardTree_wellFormed : WellFormed (dtbOf boardTree) boardTree where
  block := rfl
  tokens := by decide
  propsFirst := ⟨⟨⟨trivial, trivial, trivial⟩, trivial, ⟨trivial, trivial, trivial⟩, trivial, trivial,
    trivial, trivial⟩, trivial, trivial⟩
  oneRoot := trivial

theorem extract_memory_info_exact_board : ∃ visited, ∃ enough, ∀ fuel, enough ≤ fuel →
    extractMemoryInfo (dtbOf boardTree) fuel = .ok ⟨some (0x80000000, 0x8000000), visited⟩ := by
  have target : firstMemory (dtbOf boardTree).stringsBlock boardTree = some (regValue 0x80 8) := by
    decide
  obtain ⟨info, visited, returns, _, exactly⟩ :=
    extract_memory_info_exact boardTree_wellFormed target
  have computed : scan (dtbOf boardTree).stringsBlock boardTree.flatten false =
      some (pairOf (regValue 0x80 8)) := by decide
  have same : info = pairOf (regValue 0x80 8) := exactly.mpr fun value' isFirst =>
    Option.some.inj (isFirst.scan.symm.trans computed)
  have number : pairOf (regValue 0x80 8) = (0x80000000, 0x8000000) := by decide
  exact ⟨visited, number ▸ same ▸ returns⟩

end UCore.Driver
