import Ferrite.Wasm.Instr
import Ferrite.Wasm.Leb

/-! Modules of WebAssembly and their binary form. -/

namespace Ferrite.Wasm

structure FuncType where
  params : List ValType
  results : List ValType
  deriving DecidableEq, Repr

/-- A function that another module defines. -/
structure Import where
  module : String
  name : String
  type : Nat
  deriving DecidableEq, Repr

structure Export where
  name : String
  function : Nat
  deriving DecidableEq, Repr

/-- The locals of a function behind its parameters, and its instructions. -/
structure Code where
  locals : List ValType
  body : List Instr
  deriving Repr, Inhabited

structure Module where
  types : List FuncType
  imports : List Import
  /-- The types of the functions that the module defines. -/
  functions : List Nat
  exports : List Export
  codes : List Code
  deriving Repr

def ValType.bytes : ValType → List UInt8
  | i32 => [0x7f]
  | i64 => [0x7e]
  | f32 => [0x7d]
  | f64 => [0x7c]

def blockType : Option ValType → List UInt8
  | none => [0x40]
  | some t => t.bytes

/-- The place of the operation among those of its size. -/
def IntOp.place : IntOp → UInt8
  | add => 0 | sub => 1 | mul => 2 | divS => 3 | divU => 4 | remS => 5 | remU => 6
  | and => 7 | or => 8 | xor => 9 | shl => 10 | shrS => 11 | shrU => 12

def IntTest.place : IntTest → UInt8
  | eq => 0 | ne => 1 | ltS => 2 | ltU => 3 | gtS => 4 | gtU => 5 | leS => 6 | leU => 7
  | geS => 8 | geU => 9

def FloatOp.place : FloatOp → UInt8
  | add => 0 | sub => 1 | mul => 2 | div => 3

def FloatTest.place : FloatTest → UInt8
  | eq => 0 | ne => 1 | lt => 2 | gt => 3 | le => 4 | ge => 5

/-- A number by the size it is for. -/
def Size.pick (small large : UInt8) : Size → UInt8
  | .small => small
  | .large => large

mutual
def Instr.bytes : Instr → List UInt8
  | .unreachable => [0x00]
  | .block body => 0x02 :: blockType none ++ instrBytes body ++ [0x0b]
  | .loop body => 0x03 :: blockType none ++ instrBytes body ++ [0x0b]
  | .ifThen yes => 0x04 :: blockType none ++ instrBytes yes ++ [0x0b]
  | .ifElse result yes no =>
      0x04 :: blockType result ++ instrBytes yes ++ 0x05 :: instrBytes no ++ [0x0b]
  | .br label => 0x0c :: leb label
  | .brIf label => 0x0d :: leb label
  | .ret => [0x0f]
  | .call function => 0x10 :: leb function
  | .drop => [0x1a]
  | .localGet index => 0x20 :: leb index
  | .localSet index => 0x21 :: leb index
  | .localTee index => 0x22 :: leb index
  | .i32Const value => 0x41 :: sleb value.toInt
  | .i64Const value => 0x42 :: sleb value.toInt
  | .f32Const bits => 0x43 :: littleEndian 4 bits.toNat
  | .f64Const bits => 0x44 :: littleEndian 8 bits.toNat
  | .i32Eqz => [0x45]
  | .i32Extend8 => [0xc0]
  | .i32Extend16 => [0xc1]
  | .int size op => [size.pick 0x6a 0x7c + op.place]
  | .intTest size test => [size.pick 0x46 0x51 + test.place]
  | .float size op => [size.pick 0x92 0xa0 + op.place]
  | .floatTest size test => [size.pick 0x5b 0x61 + test.place]
  | .floatNeg size => [size.pick 0x8c 0x9a]
  | .floatTrunc size => [size.pick 0x8f 0x9d]

def instrBytes : List Instr → List UInt8
  | [] => []
  | i :: is => i.bytes ++ instrBytes is
end

/-- Parts behind their number. -/
def vector (parts : List (List UInt8)) : List UInt8 := leb parts.length ++ parts.flatten

/-- Bytes behind their number. -/
def sized (bytes : List UInt8) : List UInt8 := leb bytes.length ++ bytes

def nameBytes (s : String) : List UInt8 := sized s.toUTF8.toList

def sectionBytes (id : UInt8) (parts : List (List UInt8)) : List UInt8 := id :: sized (vector parts)

def FuncType.bytes (t : FuncType) : List UInt8 :=
  0x60 :: vector (t.params.map ValType.bytes) ++ vector (t.results.map ValType.bytes)

def Import.bytes (i : Import) : List UInt8 :=
  nameBytes i.module ++ nameBytes i.name ++ 0x00 :: leb i.type

def Export.bytes (e : Export) : List UInt8 := nameBytes e.name ++ 0x00 :: leb e.function

/-- Each local makes a group of its own. -/
def Code.bytes (c : Code) : List UInt8 :=
  sized (vector (c.locals.map fun t => leb 1 ++ t.bytes) ++ instrBytes c.body ++ [0x0b])

/-- The section of imports is left out where there are none. -/
def Module.bytes (m : Module) : List UInt8 :=
  [0x00, 0x61, 0x73, 0x6d, 0x01, 0x00, 0x00, 0x00] ++
    sectionBytes 1 (m.types.map FuncType.bytes) ++
    (if m.imports = [] then [] else sectionBytes 2 (m.imports.map Import.bytes)) ++
    sectionBytes 3 (m.functions.map leb) ++
    sectionBytes 7 (m.exports.map Export.bytes) ++
    sectionBytes 10 (m.codes.map Code.bytes)

end Ferrite.Wasm
