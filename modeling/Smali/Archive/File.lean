import Smali.Archive.Cipher
import Smali.FileTree.System

/-!
# Decrypting a file
-/

namespace Smali

/-- The file system with the decrypted form of one file put where another path
leads. What is there is replaced only if that is asked for. -/
def Cipher.decryptFile (c : Cipher) (input output : Text) (replace : Bool) (files : FileSystem) :
    Except Fault FileSystem := do
  if files.has (.ofText output) && !replace then
    throw (.plain .io (output ++ " already exists"))
  let some archive := files.text? (.ofText input)
    | throw (.plain .io "the file cannot be read")
  let plain ← c.decrypt archive
  let some files := files.put? (.ofText output) plain
    | throw (.plain .io "the file cannot be written")
  return files

end Smali
