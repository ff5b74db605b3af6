import ShaderBuild.Digest
import ShaderBuild.Error
import ShaderBuild.FileSystem
/-!
# The bytecode cache

A cache is a directory with a file for every digest whose bytecode is known. Nothing else is
remembered, so what is cached can be seen from the files alone.
-/

namespace ShaderBuild

/-- A cache. -/
structure Cache where
  dir : Path
  deriving DecidableEq, Repr, Inhabited

namespace Cache

/-- The file for a digest. -/
def path (c : Cache) (d : Digest) : Path := c.dir.join ⟨d.hex⟩

/-- Is there bytecode for a digest? -/
def contains (c : Cache) (fs : FileSystem) (d : Digest) : Bool := fs.isFile (c.path d)

/-- The bytecode for a digest. -/
def load (c : Cache) (fs : FileSystem) (d : Digest) : Except Error Bytes :=
  (fs.read (c.path d)).mapError .unreadable

/-- Store the bytecode for a digest. -/
def store (c : Cache) (fs : FileSystem) (d : Digest) (bytecode : Bytes) :
    Except Error Path × FileSystem :=
  match fs.createDirectories c.dir with
  | (.error fault, fs) => (.error (.cacheWrite c.dir fault), fs)
  | (.ok _, fs) =>
    match fs.write (c.path d) bytecode with
    | .ok fs => (.ok (c.path d), fs)
    | .error fault => (.error (.cacheWrite (c.path d) fault), fs)

end Cache

end ShaderBuild
