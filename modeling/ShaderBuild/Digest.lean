import ShaderBuild.Digest.Blake3
/-!
# Digests

A digest names the bytecode of a stage: it is computed from the entry point and the flattened
source. The digest of 32 zero bytes stands for no bytecode.
-/

namespace ShaderBuild

/-- A 256-bit content hash. -/
structure Digest where
  bytes : Bytes
  length_bytes : bytes.length = 32
  deriving DecidableEq

namespace Digest

/-- The number of bytes in a digest. -/
def size : Nat := 32

/-- The digest of some bytes. -/
def ofBytes (bytes : Bytes) : Digest := ⟨Blake3.hash bytes, Blake3.length_hash bytes⟩

/-- The digest of an entry point and a source text: that of the one followed by the other. -/
def ofSource (entryPoint text : String) : Digest :=
  ofBytes (Bytes.ofText entryPoint ++ Bytes.ofText text)

/-- The digest with these bytes, if there are 32 of them. -/
def ofRaw? (bytes : Bytes) : Option Digest :=
  if h : bytes.length = 32 then some ⟨bytes, h⟩ else none

/-- The digest that stands for an absent or failed stage. -/
def zero : Digest := ⟨List.replicate 32 0, by simp⟩

instance : Inhabited Digest := ⟨zero⟩

/-- Does this digest stand for no bytecode? -/
def isZero (d : Digest) : Bool := d.bytes == zero.bytes

/-- The 64 lowercase hexadecimal digits of a digest. -/
def hex (d : Digest) : String := Bytes.hex d.bytes

/-- A digest as debugging output shows it. -/
def describe (d : Digest) : String := "ContentHash(" ++ d.hex ++ ")"

end Digest

end ShaderBuild
