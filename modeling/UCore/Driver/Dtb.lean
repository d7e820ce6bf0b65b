import Mathlib.Data.List.TakeWhile
import UCore.Mm.PageTable

/-!
Contract: finding memory in the device tree, `extract_memory_info` of `kern/driver/dtb.c`.

Owns:
- the walk over the structure block, byte by byte;
- the tokens of a well-formed block, and that the walk takes one after the other.

Positions count from the start of the structure block, which is aligned to 4 bytes. A read outside of
the block it goes to is an error here. The header, which says where the blocks are, is left out.

Does not own: the tree that the tokens make.
-/

set_option autoImplicit false

namespace UCore.Driver

open UCore.Mm (roundDown)

/-- The structure block and the strings block. -/
structure Dtb where
  structBlock : List UInt8
  stringsBlock : List UInt8

inductive DtbStop
  | outOfBlock (position : Nat)
  | outOfFuel
deriving DecidableEq, Repr

def fdtBeginNode : Nat := 1

def fdtEndNode : Nat := 2

def fdtProp : Nat := 3

def fdtNop : Nat := 4

def fdtEnd : Nat := 9

/-! ## Reading -/

def fdt32ToCpu (x : Nat) : Nat :=
  (x &&& 0xff) <<< 24 ||| ((x >>> 8) &&& 0xff) <<< 16 ||| ((x >>> 16) &&& 0xff) <<< 8 |||
    ((x >>> 24) &&& 0xff)

def fdt64ToCpu (x : Nat) : Nat :=
  fdt32ToCpu (x &&& 0xffffffff) <<< 32 ||| fdt32ToCpu (x >>> 32)

/-- A load of `width` bytes, the lowest first. -/
def load (block : List UInt8) (position : Nat) : Nat → Except DtbStop Nat
  | 0 => .ok 0
  | width + 1 =>
      match block[position]? with
      | none => .error (.outOfBlock position)
      | some byte => do
          let high ← load block (position + 1) width
          pure (byte.toNat + 256 * high)

def read32 (block : List UInt8) (position : Nat) : Except DtbStop Nat := do
  pure (fdt32ToCpu (← load block position 4))

def read64 (block : List UInt8) (position : Nat) : Except DtbStop Nat := do
  pure (fdt64ToCpu (← load block position 8))

/-- The string at a position: the bytes before the first NUL. -/
def cString (block : List UInt8) (position : Nat) : Except DtbStop (List UInt8) :=
  let name := (block.drop position).takeWhile fun byte => byte ≠ 0
  if position + name.length < block.length then .ok name else .error (.outOfBlock block.length)

/-- `strncmp` -/
def strncmp : List UInt8 → List UInt8 → Nat → Int
  | _, _, 0 => 0
  | s1, s2, n + 1 =>
      if s1.headD 0 ≠ 0 ∧ s1.headD 0 = s2.headD 0 then strncmp s1.tail s2.tail n
      else (s1.headD 0).toNat - (s2.headD 0).toNat

/-- `strcmp` -/
def strcmp : List UInt8 → List UInt8 → Int
  | [], s2 => 0 - (s2.headD 0).toNat
  | byte :: s1, s2 =>
      if byte ≠ 0 ∧ byte = s2.headD 0 then strcmp s1 s2.tail else byte.toNat - (s2.headD 0).toNat

/-- `"memory"` -/
def memoryName : List UInt8 := [109, 101, 109, 111, 114, 121]

/-- `"reg"` -/
def regName : List UInt8 := [114, 101, 103]

/-! ## The walk -/

/-- What the walk found, and the positions of the tokens that it read. -/
structure Walked where
  info : Option (Nat × Nat)
  visited : List Nat
deriving DecidableEq

/-- The property is the one that is looked for, as far as its name goes. -/
def isRegProp (dtb : Dtb) (inMemoryNode : Bool) (propNameoff : Nat) : Except DtbStop Bool :=
  if inMemoryNode = true then do
    pure (decide (strcmp (← cString dtb.stringsBlock propNameoff) regName = 0))
  else .ok false

/-- The loop of `extract_memory_info`. -/
def extractLoop (dtb : Dtb) : Nat → Nat → Bool → List Nat → Except DtbStop Walked
  | 0, _, _, _ => .error .outOfFuel
  | fuel + 1, position, inMemoryNode, visited => do
      let token ← read32 dtb.structBlock position
      let visited := visited ++ [position]
      let position := position + 4
      if token = fdtBeginNode then do
        let name ← cString dtb.structBlock position
        let inMemoryNode := if strncmp name memoryName 6 = 0 then true else inMemoryNode
        extractLoop dtb fuel (roundDown (position + name.length + 4) 4) inMemoryNode visited
      else if token = fdtEndNode then extractLoop dtb fuel position false visited
      else if token = fdtProp then do
        let propLen ← read32 dtb.structBlock position
        let propNameoff ← read32 dtb.structBlock (position + 4)
        let position := position + 8
        let isReg ← isRegProp dtb inMemoryNode propNameoff
        if isReg = true ∧ propLen ≥ 16 then do
          let memBase ← read64 dtb.structBlock position
          let memSize ← read64 dtb.structBlock (position + 8)
          pure ⟨some (memBase, memSize), visited⟩
        else extractLoop dtb fuel (roundDown (position + propLen + 3) 4) inMemoryNode visited
      else if token = fdtNop then extractLoop dtb fuel position inMemoryNode visited
      -- `FDT_END` and everything else
      else pure ⟨none, visited⟩

def extractMemoryInfo (dtb : Dtb) (fuel : Nat) : Except DtbStop Walked :=
  extractLoop dtb fuel 0 false []

/-! ## Tokens -/

inductive Token
  | beginNode (name : List UInt8)
  | endNode
  | prop (nameoff : Nat) (value : List UInt8)
  | nop
deriving DecidableEq

/-- A big-endian number of 4 bytes. -/
def be32 (value : Nat) : List UInt8 :=
  [UInt8.ofNat (value / 2 ^ 24), UInt8.ofNat (value / 2 ^ 16), UInt8.ofNat (value / 2 ^ 8),
    UInt8.ofNat value]

/-- Filled up to a multiple of 4 bytes. -/
def padded (bytes : List UInt8) : List UInt8 :=
  bytes ++ List.replicate ((4 - bytes.length % 4) % 4) 0

def Token.encode : Token → List UInt8
  | .beginNode name => be32 fdtBeginNode ++ padded (name ++ [0])
  | .endNode => be32 fdtEndNode
  | .prop nameoff value => be32 fdtProp ++ be32 value.length ++ be32 nameoff ++ padded value
  | .nop => be32 fdtNop

def encodeAll (tokens : List Token) : List UInt8 := tokens.flatMap Token.encode

/-- The number in the first bytes, the highest first. -/
def bigEndian (bytes : List UInt8) : Nat := bytes.foldl (fun high byte => 256 * high + byte.toNat) 0

/-- The first address and size in a `reg` property with two cells for each. -/
def pairOf (value : List UInt8) : Nat × Nat :=
  (bigEndian (value.take 8), bigEndian ((value.drop 8).take 8))

/-- The name of a property. -/
def propName (strings : List UInt8) (nameoff : Nat) : List UInt8 :=
  (strings.drop nameoff).takeWhile fun byte => byte ≠ 0

/-- A token that a well-formed block may have. -/
def Token.Ok (strings : List UInt8) : Token → Prop
  | .beginNode name => 0 ∉ name
  | .endNode => True
  | .prop nameoff value => nameoff < 2 ^ 32 ∧ value.length < 2 ^ 32 ∧
      nameoff + (propName strings nameoff).length < strings.length
  | .nop => True

instance (strings : List UInt8) : (token : Token) → Decidable (token.Ok strings)
  | .beginNode name => inferInstanceAs (Decidable (0 ∉ name))
  | .endNode => isTrue trivial
  | .prop _ _ => inferInstanceAs (Decidable (_ ∧ _))
  | .nop => isTrue trivial

/-- What the walk does on tokens. -/
def scan (strings : List UInt8) : List Token → Bool → Option (Nat × Nat)
  | [], _ => none
  | .beginNode name :: rest, inMemoryNode =>
      scan strings rest (inMemoryNode || memoryName.isPrefixOf name)
  | .endNode :: rest, _ => scan strings rest false
  | .prop nameoff value :: rest, inMemoryNode =>
      if inMemoryNode = true ∧ propName strings nameoff = regName ∧ 16 ≤ value.length then
        some (pairOf value)
      else scan strings rest inMemoryNode
  | .nop :: rest, inMemoryNode => scan strings rest inMemoryNode

/-! ## What is read -/

/-- A number below its shifted companion is added to it. -/
theorem shift_or {high low width : Nat} (small : low < 2 ^ width) :
    high <<< width ||| low = high * 2 ^ width + low := by
  rw [← Nat.shiftLeft_add_eq_or_of_lt small, Nat.shiftLeft_eq]

theorem fdt32ToCpu_eq (x : Nat) : fdt32ToCpu x =
    (x % 256) * 2 ^ 24 + ((x / 2 ^ 8 % 256) * 2 ^ 16 + ((x / 2 ^ 16 % 256) * 2 ^ 8 +
      x / 2 ^ 24 % 256)) := by
  have byte : ∀ y : Nat, y &&& 0xff = y % 256 := fun y => Nat.and_two_pow_sub_one_eq_mod y 8
  unfold fdt32ToCpu
  rw [byte, byte, byte, byte, Nat.shiftRight_eq_div_pow, Nat.shiftRight_eq_div_pow,
    Nat.shiftRight_eq_div_pow, Nat.or_assoc, Nat.or_assoc, @shift_or _ (x / 2 ^ 24 % 256) 8 (by omega),
    @shift_or _ (x / 2 ^ 16 % 256 * 2 ^ 8 + x / 2 ^ 24 % 256) 16 (by omega), shift_or (by omega)]

theorem fdt64ToCpu_eq (x : Nat) :
    fdt64ToCpu x = fdt32ToCpu (x % 2 ^ 32) * 2 ^ 32 + fdt32ToCpu (x / 2 ^ 32) := by
  have low : x &&& 0xffffffff = x % 2 ^ 32 := Nat.and_two_pow_sub_one_eq_mod x 32
  unfold fdt64ToCpu
  rw [low, Nat.shiftRight_eq_div_pow, shift_or]
  rw [fdt32ToCpu_eq]
  omega

/-- The number in bytes, the lowest first. -/
def littleEndian (bytes : List UInt8) : Nat := bytes.foldr (fun byte high => byte.toNat + 256 * high) 0

theorem load_bytes (bytes : List UInt8) : ∀ before after : List UInt8,
    load (before ++ (bytes ++ after)) before.length bytes.length = .ok (littleEndian bytes) := by
  induction bytes with
  | nil => exact fun _ _ => rfl
  | cons byte bytes inductionHypothesis =>
      intro before after
      have here : (before ++ (byte :: bytes ++ after))[before.length]? = some byte := by
        rw [List.getElem?_append_right (Nat.le_refl _), Nat.sub_self]
        rfl
      have rest := inductionHypothesis (before ++ [byte]) after
      rw [List.length_append, List.length_singleton, List.append_assoc] at rest
      rw [List.length_cons, load, here]
      change (load (before ++ ([byte] ++ (bytes ++ after))) (before.length + 1) bytes.length).bind _ = _
      rw [rest]
      rfl

theorem fdt32ToCpu_bytes (a b c d : UInt8) :
    fdt32ToCpu (littleEndian [a, b, c, d]) = bigEndian [a, b, c, d] := by
  have aSmall := a.toNat_lt
  have bSmall := b.toNat_lt
  have cSmall := c.toNat_lt
  have dSmall := d.toNat_lt
  have number : littleEndian [a, b, c, d] =
      a.toNat + 256 * (b.toNat + 256 * (c.toNat + 256 * d.toNat)) := rfl
  have first : littleEndian [a, b, c, d] % 256 = a.toNat := by omega
  have second : littleEndian [a, b, c, d] / 2 ^ 8 % 256 = b.toNat := by omega
  have third : littleEndian [a, b, c, d] / 2 ^ 16 % 256 = c.toNat := by omega
  have fourth : littleEndian [a, b, c, d] / 2 ^ 24 % 256 = d.toNat := by omega
  rw [fdt32ToCpu_eq, first, second, third, fourth]
  simp only [bigEndian, List.foldl_cons, List.foldl_nil]
  omega

theorem littleEndian_lt (a b c d : UInt8) : littleEndian [a, b, c, d] < 2 ^ 32 := by
  have aSmall := a.toNat_lt
  have bSmall := b.toNat_lt
  have cSmall := c.toNat_lt
  have dSmall := d.toNat_lt
  simp only [littleEndian, List.foldr_cons, List.foldr_nil]
  omega

theorem read32_bytes {bytes : List UInt8} (length : bytes.length = 4) (before after : List UInt8) :
    read32 (before ++ (bytes ++ after)) before.length = .ok (bigEndian bytes) := by
  obtain ⟨a, b, c, d, rfl⟩ := List.length_eq_four.mp length
  unfold read32
  rw [show (4 : Nat) = [a, b, c, d].length from rfl, load_bytes]
  exact congrArg Except.ok (fdt32ToCpu_bytes a b c d)

theorem bigEndian_append (bytes : List UInt8) (a b c d : UInt8) :
    bigEndian (bytes ++ [a, b, c, d]) = bigEndian bytes * 2 ^ 32 + bigEndian [a, b, c, d] := by
  unfold bigEndian
  rw [List.foldl_append]
  simp only [List.foldl_cons, List.foldl_nil]
  omega

theorem read64_bytes {bytes : List UInt8} (length : bytes.length = 8) (before after : List UInt8) :
    read64 (before ++ (bytes ++ after)) before.length = .ok (bigEndian bytes) := by
  have split := (List.take_append_drop 4 bytes).symm
  obtain ⟨a, b, c, d, low⟩ := List.length_eq_four.mp (show (bytes.take 4).length = 4 by
    rw [List.length_take]; omega)
  obtain ⟨a', b', c', d', high⟩ := List.length_eq_four.mp (show (bytes.drop 4).length = 4 by
    rw [List.length_drop]; omega)
  rw [low, high] at split
  subst split
  have whole : littleEndian ([a, b, c, d] ++ [a', b', c', d']) =
      littleEndian [a, b, c, d] + 2 ^ 32 * littleEndian [a', b', c', d'] := by
    simp only [littleEndian, List.foldr_cons, List.foldr_nil, List.cons_append, List.nil_append]
    omega
  have small := littleEndian_lt a b c d
  unfold read64
  rw [show (8 : Nat) = ([a, b, c, d] ++ [a', b', c', d']).length from rfl, load_bytes]
  refine congrArg Except.ok ?_
  rw [fdt64ToCpu_eq, whole, show (littleEndian [a, b, c, d] + 2 ^ 32 * littleEndian [a', b', c', d']) %
      2 ^ 32 = littleEndian [a, b, c, d] by omega,
    show (littleEndian [a, b, c, d] + 2 ^ 32 * littleEndian [a', b', c', d']) / 2 ^ 32 =
      littleEndian [a', b', c', d'] by omega, fdt32ToCpu_bytes, fdt32ToCpu_bytes, bigEndian_append]

theorem bigEndian_be32 {value : Nat} (small : value < 2 ^ 32) : bigEndian (be32 value) = value := by
  simp only [bigEndian, be32, List.foldl_cons, List.foldl_nil, UInt8.toNat_ofNat']
  omega

theorem read32_be32 {value : Nat} (small : value < 2 ^ 32) (before after : List UInt8) :
    read32 (before ++ (be32 value ++ after)) before.length = .ok value := by
  rw [read32_bytes rfl, bigEndian_be32 small]

theorem cString_bytes {name : List UInt8} (noNul : 0 ∉ name) (before after : List UInt8) :
    cString (before ++ (name ++ 0 :: after)) before.length = .ok name := by
  have string : ((before ++ (name ++ 0 :: after)).drop before.length).takeWhile
      (fun byte => decide (byte ≠ 0)) = name := by
    rw [List.drop_left, List.takeWhile_append_of_pos, List.takeWhile_cons_of_neg (by decide),
      List.append_nil]
    intro byte member
    exact decide_eq_true fun nul => noNul (nul ▸ member)
  unfold cString
  rw [string]
  apply if_pos
  simp only [List.length_append, List.length_cons]
  omega

theorem strncmp_cons (first byte : UInt8) (s1 s2 : List UInt8) (n : Nat) :
    strncmp (first :: s1) (byte :: s2) (n + 1) =
      if first ≠ 0 ∧ first = byte then strncmp s1 s2 n else first.toNat - byte.toNat := rfl

theorem strcmp_cons (first byte : UInt8) (s1 s2 : List UInt8) :
    strcmp (first :: s1) (byte :: s2) =
      if first ≠ 0 ∧ first = byte then strcmp s1 s2 else first.toNat - byte.toNat := rfl

/-- `strncmp` over the length of a string tells whether it is a prefix. -/
theorem strncmp_iff (s2 : List UInt8) (noNul : 0 ∉ s2) (s1 : List UInt8) :
    strncmp s1 s2 s2.length = 0 ↔ s2.isPrefixOf s1 = true := by
  induction s2 generalizing s1 with
  | nil => simp [strncmp]
  | cons byte s2 inductionHypothesis =>
      obtain ⟨notNul, rest⟩ := not_or.mp (mt List.mem_cons.mpr noNul)
      cases s1 with
      | nil =>
          have compared : strncmp [] (byte :: s2) (byte :: s2).length =
              ((0 : UInt8).toNat : Int) - byte.toNat := if_neg fun both => both.1 rfl
          rw [compared]
          refine iff_of_false (fun same => notNul (UInt8.toNat_inj.mp (by omega))) ?_
          simp [List.isPrefixOf]
      | cons first s1 =>
          rw [List.length_cons, strncmp_cons, List.isPrefixOf, Bool.and_eq_true, beq_iff_eq]
          by_cases same : first = byte
          · subst same
            rw [if_pos ⟨Ne.symm notNul, rfl⟩, inductionHypothesis rest]
            exact (and_iff_right rfl).symm
          · rw [if_neg fun both => same both.2]
            refine iff_of_false (fun equal => same (UInt8.toNat_inj.mp (by omega))) fun both => ?_
            exact same both.1.symm

theorem strcmp_iff (s1 s2 : List UInt8) (noNul : 0 ∉ s1) (alsoNoNul : 0 ∉ s2) :
    strcmp s1 s2 = 0 ↔ s1 = s2 := by
  induction s1 generalizing s2 with
  | nil =>
      cases s2 with
      | nil => simp [strcmp]
      | cons byte s2 =>
          have notNul : (0 : UInt8) ≠ byte := fun same => alsoNoNul (same ▸ List.mem_cons_self)
          refine iff_of_false (fun equal => notNul (UInt8.toNat_inj.mp ?_)) nofun
          have equal : (0 : Int) - byte.toNat = 0 := equal
          change 0 = byte.toNat
          omega
  | cons first s1 inductionHypothesis =>
      obtain ⟨notNul, rest⟩ := not_or.mp (mt List.mem_cons.mpr noNul)
      cases s2 with
      | nil =>
          have compared : strcmp (first :: s1) [] = (first.toNat : Int) - (0 : UInt8).toNat :=
            if_neg fun both => both.1 both.2
          rw [compared]
          refine iff_of_false (fun equal => notNul (UInt8.toNat_inj.mp ?_)) nofun
          omega
      | cons byte s2 =>
          rw [strcmp_cons]
          by_cases same : first = byte
          · subst same
            rw [if_pos ⟨Ne.symm notNul, rfl⟩,
              inductionHypothesis s2 rest fun member => alsoNoNul (List.mem_cons_of_mem _ member)]
            exact ⟨fun equal => congrArg _ equal, fun equal => (List.cons.inj equal).2⟩
          · rw [if_neg fun both => same both.2]
            refine iff_of_false (fun equal => same (UInt8.toNat_inj.mp (by omega))) fun equal => ?_
            exact same (List.cons.inj equal).1

/-! ## One token after the other -/

section Steps

variable {dtb : Dtb} {fuel position nameoff : Nat} {inMemoryNode : Bool} {visited : List Nat}
  {name value : List UInt8}

theorem extractLoop_beginNode (token : read32 dtb.structBlock position = .ok fdtBeginNode)
    (string : cString dtb.structBlock (position + 4) = .ok name) :
    extractLoop dtb (fuel + 1) position inMemoryNode visited =
      extractLoop dtb fuel (roundDown (position + 4 + name.length + 4) 4)
        (if strncmp name memoryName 6 = 0 then true else inMemoryNode) (visited ++ [position]) := by
  rw [extractLoop, token]
  change (cString dtb.structBlock (position + 4)).bind _ = _
  rw [string]
  rfl

theorem extractLoop_endNode (token : read32 dtb.structBlock position = .ok fdtEndNode) :
    extractLoop dtb (fuel + 1) position inMemoryNode visited =
      extractLoop dtb fuel (position + 4) false (visited ++ [position]) := by
  rw [extractLoop, token]
  rfl

theorem extractLoop_nop (token : read32 dtb.structBlock position = .ok fdtNop) :
    extractLoop dtb (fuel + 1) position inMemoryNode visited =
      extractLoop dtb fuel (position + 4) inMemoryNode (visited ++ [position]) := by
  rw [extractLoop, token]
  rfl

theorem extractLoop_end (token : read32 dtb.structBlock position = .ok fdtEnd) :
    extractLoop dtb (fuel + 1) position inMemoryNode visited = .ok ⟨none, visited ++ [position]⟩ := by
  rw [extractLoop, token]
  rfl

theorem extractLoop_prop {propLen : Nat} {isReg : Bool}
    (token : read32 dtb.structBlock position = .ok fdtProp)
    (length : read32 dtb.structBlock (position + 4) = .ok propLen)
    (offset : read32 dtb.structBlock (position + 4 + 4) = .ok nameoff)
    (reg : isRegProp dtb inMemoryNode nameoff = .ok isReg) :
    extractLoop dtb (fuel + 1) position inMemoryNode visited =
      if isReg = true ∧ propLen ≥ 16 then do
        let memBase ← read64 dtb.structBlock (position + 4 + 8)
        let memSize ← read64 dtb.structBlock (position + 4 + 8 + 8)
        pure ⟨some (memBase, memSize), visited ++ [position]⟩
      else extractLoop dtb fuel (roundDown (position + 4 + 8 + propLen + 3) 4) inMemoryNode
        (visited ++ [position]) := by
  rw [extractLoop, token]
  change (read32 dtb.structBlock (position + 4)).bind _ = _
  rw [length]
  change (read32 dtb.structBlock (position + 4 + 4)).bind _ = _
  rw [offset]
  change (isRegProp dtb inMemoryNode nameoff).bind _ = _
  rw [reg]
  rfl

end Steps

theorem length_padded (bytes : List UInt8) :
    (padded bytes).length = bytes.length + (4 - bytes.length % 4) % 4 := by
  rw [padded, List.length_append, List.length_replicate]

theorem length_be32 (value : Nat) : (be32 value).length = 4 := rfl

/-- The position after a token. -/
theorem roundDown_padded {position : Nat} (aligned : position % 4 = 0) (bytes : List UInt8) :
    roundDown (position + bytes.length + 3) 4 = position + (padded bytes).length := by
  rw [length_padded]
  unfold roundDown
  omega

theorem length_encode (token : Token) : token.encode.length % 4 = 0 := by
  have filled : ∀ bytes : List UInt8, (padded bytes).length % 4 = 0 := by
    intro bytes
    rw [length_padded]
    omega
  cases token with
  | beginNode name =>
      have whole := filled (name ++ [0])
      rw [Token.encode, List.length_append, length_be32]
      omega
  | endNode => rfl
  | prop nameoff value =>
      have whole := filled value
      rw [Token.encode, List.length_append, List.length_append, List.length_append, length_be32,
        length_be32, length_be32]
      omega
  | nop => rfl

theorem not_mem_propName (strings : List UInt8) (nameoff : Nat) : 0 ∉ propName strings nameoff := by
  intro member
  have notNul := List.mem_takeWhile_imp member
  exact absurd rfl (of_decide_eq_true notNul)

theorem cString_propName {strings : List UInt8} {nameoff : Nat}
    (inBlock : nameoff + (propName strings nameoff).length < strings.length) :
    cString strings nameoff = .ok (propName strings nameoff) := if_pos inBlock

/-- The name of a property is only looked at inside of a memory node. -/
theorem isRegProp_eq {dtb : Dtb} {nameoff : Nat} (inMemoryNode : Bool)
    (inBlock : nameoff + (propName dtb.stringsBlock nameoff).length < dtb.stringsBlock.length) :
    isRegProp dtb inMemoryNode nameoff =
      .ok (decide (inMemoryNode = true ∧ propName dtb.stringsBlock nameoff = regName)) := by
  have noNul : 0 ∉ regName := by decide
  cases inMemoryNode with
  | false => rfl
  | true =>
      have compared := strcmp_iff _ _ (not_mem_propName dtb.stringsBlock nameoff) noNul
      unfold isRegProp
      rw [if_pos rfl, cString_propName inBlock]
      refine congrArg Except.ok (decide_eq_decide.mpr ?_)
      rw [compared]
      exact (and_iff_right rfl).symm

/-- The first pair in the value of a property. -/
theorem readPair_prop {block before value rest : List UInt8} {first second third : Nat}
    (parts : block = before ++ (be32 first ++ (be32 second ++ (be32 third ++ (padded value ++ rest)))))
    (long : 16 ≤ value.length) :
    read64 block (before.length + 4 + 8) = .ok (pairOf value).1 ∧
      read64 block (before.length + 4 + 8 + 8) = .ok (pairOf value).2 := by
  have split : value = value.take 8 ++ ((value.drop 8).take 8 ++ (value.drop 8).drop 8) := by
    rw [List.take_append_drop, List.take_append_drop]
  have baseLength : (value.take 8).length = 8 := by
    rw [List.length_take]
    omega
  have sizeLength : ((value.drop 8).take 8).length = 8 := by
    rw [List.length_take, List.length_drop]
    omega
  obtain ⟨front, isFront⟩ : ∃ front, front = before ++ be32 first ++ be32 second ++ be32 third :=
    ⟨_, rfl⟩
  have length : front.length = before.length + 4 + 8 := by
    rw [isFront, List.length_append, List.length_append, List.length_append, length_be32, length_be32,
      length_be32]
  obtain ⟨back, isBack⟩ : ∃ back, padded value ++ rest =
      value.take 8 ++ ((value.drop 8).take 8 ++ back) := by
    refine ⟨(value.drop 8).drop 8 ++ (List.replicate ((4 - value.length % 4) % 4) 0 ++ rest), ?_⟩
    rw [← List.append_assoc ((value.drop 8).take 8), ← List.append_assoc (value.take 8), ← split,
      ← List.append_assoc value]
    rfl
  have block' : block = front ++ (value.take 8 ++ ((value.drop 8).take 8 ++ back)) := by
    rw [parts, isFront, ← isBack]
    simp only [List.append_assoc]
  have readBase := read64_bytes baseLength front ((value.drop 8).take 8 ++ back)
  have readSize := read64_bytes sizeLength (front ++ value.take 8) back
  rw [length] at readBase
  rw [List.length_append, length, baseLength, List.append_assoc] at readSize
  rw [block']
  exact ⟨readBase, readSize⟩

/-- The walk takes one token after the other. -/
theorem extractLoop_tokens {dtb : Dtb} (tokens : List Token) :
    ∀ (before : List UInt8) (inMemoryNode : Bool) (visited : List Nat),
      dtb.structBlock = before ++ (encodeAll tokens ++ be32 fdtEnd) → before.length % 4 = 0 →
      (∀ token ∈ tokens, token.Ok dtb.stringsBlock) →
      ∃ more, (∀ fuel, tokens.length < fuel →
          extractLoop dtb fuel before.length inMemoryNode visited =
            .ok ⟨scan dtb.stringsBlock tokens inMemoryNode, visited ++ more⟩) ∧
        ∀ position ∈ more, ∃ xs ys, tokens = xs ++ ys ∧
          position = before.length + (encodeAll xs).length := by
  induction tokens with
  | nil =>
      intro before inMemoryNode visited block _ _
      have token : read32 dtb.structBlock before.length = .ok fdtEnd := by
        rw [block]
        exact read32_be32 (by decide) before []
      refine ⟨[before.length], fun fuel enough => ?_, fun position member =>
        ⟨[], [], rfl, List.mem_singleton.mp member⟩⟩
      obtain ⟨fuel, rfl⟩ : ∃ smaller, fuel = smaller + 1 := ⟨fuel - 1, by omega⟩
      exact extractLoop_end token
  | cons token rest inductionHypothesis =>
      intro before inMemoryNode visited block aligned ok
      have whole : dtb.structBlock =
          before ++ (token.encode ++ (encodeAll rest ++ be32 fdtEnd)) := by
        rw [block, ← List.append_assoc token.encode]
        rfl
      have tokenAligned := length_encode token
      -- what happens after the token
      have goesOn : ∀ (flag : Bool),
          (∀ fuel, extractLoop dtb (fuel + 1) before.length inMemoryNode visited =
            extractLoop dtb fuel (before.length + token.encode.length) flag
              (visited ++ [before.length])) →
          scan dtb.stringsBlock (token :: rest) inMemoryNode = scan dtb.stringsBlock rest flag →
          ∃ more, (∀ fuel, (token :: rest).length < fuel →
              extractLoop dtb fuel before.length inMemoryNode visited =
                .ok ⟨scan dtb.stringsBlock (token :: rest) inMemoryNode, visited ++ more⟩) ∧
            ∀ position ∈ more, ∃ xs ys, token :: rest = xs ++ ys ∧
              position = before.length + (encodeAll xs).length := by
        intro flag step same
        obtain ⟨more, returns, boundaries⟩ := inductionHypothesis (before ++ token.encode) flag
          (visited ++ [before.length]) (by rw [whole, List.append_assoc])
          (by rw [List.length_append]; omega)
          (fun other member => ok other (List.mem_cons_of_mem _ member))
        rw [List.length_append] at returns boundaries
        refine ⟨before.length :: more, fun fuel enough => ?_, fun position member => ?_⟩
        · obtain ⟨fuel, rfl⟩ : ∃ smaller, fuel = smaller + 1 := ⟨fuel - 1, by omega⟩
          rw [step, returns fuel (Nat.lt_of_succ_lt_succ enough), same, List.append_assoc]
          rfl
        · rcases List.mem_cons.mp member with rfl | later
          · exact ⟨[], token :: rest, rfl, rfl⟩
          · obtain ⟨xs, ys, split, isPosition⟩ := boundaries position later
            refine ⟨token :: xs, ys, by rw [split]; rfl, ?_⟩
            rw [isPosition, show encodeAll (token :: xs) = token.encode ++ encodeAll xs from rfl,
              List.length_append, Nat.add_assoc]
      have isOk := ok token List.mem_cons_self
      cases token with
      | beginNode name =>
          have read : read32 dtb.structBlock before.length = .ok fdtBeginNode := by
            rw [whole, Token.encode, List.append_assoc]
            exact read32_be32 (by decide) before _
          have string : cString dtb.structBlock (before.length + 4) = .ok name := by
            have read := cString_bytes isOk (before ++ be32 fdtBeginNode)
              (List.replicate ((4 - (name ++ [0]).length % 4) % 4) 0 ++ (encodeAll rest ++ be32 fdtEnd))
            rw [@List.length_append _ before, length_be32] at read
            rw [whole, Token.encode, padded, List.append_assoc (be32 fdtBeginNode),
              ← List.append_assoc before, List.append_assoc (name ++ [0]), List.append_assoc name]
            exact read
          have compared : strncmp name memoryName 6 = 0 ↔ memoryName.isPrefixOf name = true :=
            strncmp_iff memoryName (by decide) name
          refine goesOn (inMemoryNode || memoryName.isPrefixOf name) (fun fuel => ?_) rfl
          have next : roundDown (before.length + 4 + name.length + 4) 4 =
              before.length + (Token.encode (.beginNode name)).length := by
            have position := roundDown_padded (show (before.length + 4) % 4 = 0 by omega) (name ++ [0])
            rw [List.length_append, List.length_singleton] at position
            rw [Token.encode, List.length_append, length_be32, ← Nat.add_assoc, ← position]
            rfl
          have flag : (if strncmp name memoryName 6 = 0 then true else inMemoryNode) =
              (inMemoryNode || memoryName.isPrefixOf name) := by
            cases isPrefix : memoryName.isPrefixOf name with
            | true => rw [if_pos (compared.mpr isPrefix), Bool.or_true]
            | false =>
                rw [if_neg fun same => Bool.noConfusion ((compared.mp same).symm.trans isPrefix),
                  Bool.or_false]
          rw [extractLoop_beginNode read string, next, flag]
      | endNode =>
          have read : read32 dtb.structBlock before.length = .ok fdtEndNode := by
            rw [whole]
            exact read32_be32 (by decide) before _
          exact goesOn false (fun fuel => extractLoop_endNode read) rfl
      | nop =>
          have read : read32 dtb.structBlock before.length = .ok fdtNop := by
            rw [whole]
            exact read32_be32 (by decide) before _
          exact goesOn inMemoryNode (fun fuel => extractLoop_nop read) rfl
      | prop nameoff value =>
          obtain ⟨smallOff, smallLen, inBlock⟩ := isOk
          have parts : dtb.structBlock = before ++ (be32 fdtProp ++ (be32 value.length ++
              (be32 nameoff ++ (padded value ++ (encodeAll rest ++ be32 fdtEnd))))) := by
            rw [whole, Token.encode]
            simp only [List.append_assoc]
          have read : read32 dtb.structBlock before.length = .ok fdtProp := by
            rw [parts]
            exact read32_be32 (by decide) before _
          have readLength : read32 dtb.structBlock (before.length + 4) = .ok value.length := by
            have read := read32_be32 smallLen (before ++ be32 fdtProp)
              (be32 nameoff ++ (padded value ++ (encodeAll rest ++ be32 fdtEnd)))
            rw [List.length_append, length_be32] at read
            rw [parts, ← List.append_assoc]
            exact read
          have readOffset : read32 dtb.structBlock (before.length + 4 + 4) = .ok nameoff := by
            have read := read32_be32 smallOff (before ++ be32 fdtProp ++ be32 value.length)
              (padded value ++ (encodeAll rest ++ be32 fdtEnd))
            rw [List.length_append, List.length_append, length_be32, length_be32] at read
            rw [parts, ← List.append_assoc, ← List.append_assoc]
            exact read
          have step := fun fuel => @extractLoop_prop dtb fuel before.length nameoff inMemoryNode visited
            value.length _ read readLength readOffset (isRegProp_eq inMemoryNode inBlock)
          by_cases hit : inMemoryNode = true ∧ propName dtb.stringsBlock nameoff = regName ∧
              16 ≤ value.length
          · obtain ⟨inside, isReg, long⟩ := hit
            obtain ⟨readBase, readSize⟩ := readPair_prop parts long
            have found : scan dtb.stringsBlock (.prop nameoff value :: rest) inMemoryNode =
                some (pairOf value) := if_pos ⟨inside, isReg, long⟩
            refine ⟨[before.length], fun fuel enough => ?_, fun position member =>
              ⟨[], _, rfl, List.mem_singleton.mp member⟩⟩
            obtain ⟨fuel, rfl⟩ : ∃ smaller, fuel = smaller + 1 := ⟨fuel - 1, by omega⟩
            rw [step, if_pos ⟨decide_eq_true ⟨inside, isReg⟩, long⟩, readBase, found]
            change (read64 dtb.structBlock (before.length + 4 + 8 + 8)).bind _ = _
            rw [readSize]
            rfl
          · have misses : ¬ (decide (inMemoryNode = true ∧
                propName dtb.stringsBlock nameoff = regName) = true ∧ value.length ≥ 16) :=
              fun both => hit ⟨(of_decide_eq_true both.1).1, (of_decide_eq_true both.1).2, both.2⟩
            have next : roundDown (before.length + 4 + 8 + value.length + 3) 4 =
                before.length + (Token.encode (.prop nameoff value)).length := by
              rw [roundDown_padded (by omega), Token.encode, List.length_append, List.length_append,
                List.length_append, length_be32, length_be32, length_be32]
              omega
            refine goesOn inMemoryNode (fun fuel => ?_) (if_neg hit)
            rw [step, if_neg misses, next]

end UCore.Driver
