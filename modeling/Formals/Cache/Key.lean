import Formals.Cache.Hash
import Formals.Json.Printer
import Formals.Tree.Writing

/-!
# Keys of the cache

A key names a body by its file and its name, and fixes what the body compiles to by a fingerprint of
its tree and of the option it is compiled under: a body that was edited has another key. The two
hash functions that this takes are a parameter, `Hashing`, since nothing but their values' being
different matters, and for the names of record files not even that.
-/

namespace Formals.Cache

/-- Names what a record holds. -/
structure Key where
  file : String
  body : String
  fingerprint : UInt64
  deriving DecidableEq, Repr, Inhabited

/-- The hash functions of a cache. -/
structure Hashing where
  /-- Of the text of a tree and the option that its names are local. -/
  fingerprint : String → Bool → UInt64
  /-- The name of the file in which the record of a key is kept. -/
  recordName : Key → String

/-- The key of a body in a file. -/
def Key.ofBody (h : Hashing) (file : String) (body : Body) (localOnly : Bool) : Key :=
  ⟨file, body.name, h.fingerprint body.toJson.text localOnly⟩

/-- Sixteen hexadecimal digits. -/
def hex64 (n : UInt64) : String :=
  let digits := hexDigits n.toNat
  String.ofList (List.replicate (16 - digits.length) '0') ++ digits

/-- The hash functions in use (`Hash`): over the text of a tree and its option, and over the parts
of a key. What is proved of caches holds for all hash functions; it takes these to find the records
of a directory under the names of their files. -/
def Hashing.standard : Hashing where
  fingerprint text localOnly :=
    Hash.finish (Hash.add (Hash.addText 0 text) (if localOnly then 1 else 0))
  recordName key :=
    hex64 (Hash.finish (Hash.add (Hash.addText (Hash.addText 0 key.file) key.body)
      key.fingerprint)) ++ ".argb"

end Formals.Cache
