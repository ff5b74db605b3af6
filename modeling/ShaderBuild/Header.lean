import ShaderBuild.Digest
import ShaderBuild.Error
import ShaderBuild.FileSystem
/-!
# Object headers

An object file names the bytecode of each stage of a shader: four bytes of tag, then a digest for
every stage in pipeline order. The zero digest stands for a stage without bytecode.
-/

namespace ShaderBuild

/-- The digests in an object file. -/
structure Header where
  digests : PerStage Digest := .replicate .zero
  deriving DecidableEq

namespace Header

instance : Inhabited Header := ⟨{}⟩

/-- The bytes that an object file starts with. -/
def tag : Bytes := [0x54, 0x53, 0x48, 0x4F]

/-- The number of bytes in an object file. -/
def size : Nat := 164

/-- The digest of a stage. -/
def get (h : Header) (s : Stage) : Digest := h.digests.get s

/-- Change the digest of a stage. -/
def set (h : Header) (s : Stage) (d : Digest) : Header := ⟨h.digests.set s d⟩

/-- The content of an object file. -/
def toBytes (h : Header) : Bytes := tag ++ Stage.all.flatMap fun s => (h.get s).bytes

theorem length_record {bytes : Bytes} (h : bytes.length = size) (s : Stage) :
    ((bytes.drop (4 + 32 * s.index)).take 32).length = 32 := by
  simp only [size] at h
  cases s <;> simp [Stage.index, h]

/-- The header in the content of an object file. -/
def ofBytes (bytes : Bytes) : Except ObjectFault Header :=
  if h : bytes.length = size then
    if bytes.take 4 = tag then
      .ok ⟨.ofFn fun s => ⟨(bytes.drop (4 + 32 * s.index)).take 32, length_record h s⟩⟩
    else .error (.badTag ((bytes.take 4).map UInt8.toNat))
  else .error (.wrongSize size bytes.length)

/-- Write an object file. Its directory is created if it is missing. -/
def write (h : Header) (fs : FileSystem) (p : Path) : Except Error Unit × FileSystem :=
  let (result, fs) := fs.writeCreating p h.toBytes
  (result.mapError (.cacheWrite p), fs)

/-- Read an object file. -/
def read (fs : FileSystem) (p : Path) : Except Error Header :=
  if fs.isFile p then
    match fs.read p with
    | .ok content => (ofBytes content).mapError .invalidObject
    | .error fault => .error (.unreadable fault)
  else .error (.fileNotFound p)

end Header

end ShaderBuild
