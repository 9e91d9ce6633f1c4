import ShaderCompose.Module.Basic
import ShaderCompose.Source.Store

/-!
The library of loaded classes. A class is kept until it is evicted, by itself or with one that it
inherits from.
-/

namespace ShaderCompose

/-- A class with its bases loaded. -/
structure LoadedClass where
  module : Module
  sourceDigest : Digest
  baseKeys : List ModuleKey
  slotKeys : List ModuleKey
  path : Option String
  isMixin : Bool
  deriving Repr, Inhabited

namespace LoadedClass

def key (c : LoadedClass) : ModuleKey := c.module.key

def cls (c : LoadedClass) : ShaderClass := c.module.cls

/-- The classes it names. -/
def dependencies (c : LoadedClass) : List ModuleKey := c.baseKeys ++ c.slotKeys

/-- One and the same load of a class. -/
def same (a b : LoadedClass) : Bool := a.module.id == b.module.id

end LoadedClass

/-- Classes by key. -/
abbrev Cache := List (ModuleKey × LoadedClass)

/-- The sources, and the classes kept from them. -/
structure Library where
  store : SourceStore := {}
  cache : Cache := []
  next : Nat := 0
  deriving Repr, Inhabited

namespace Library

def cached? (l : Library) (key : ModuleKey) : Option LoadedClass := l.cache.lookup key

/-! ## Eviction -/

/-- Named, or with a named base. -/
def isObsolete (names : List String) (entry : ModuleKey × LoadedClass) : Bool :=
  names.contains entry.1.name || entry.2.baseKeys.any fun b => names.contains b.name

/-- Drop the named classes and their heirs, round by round. -/
def dropObsolete : (fuel : Nat) → List String → Cache → List String × Cache
  | 0, names, cache => (names, cache)
  | fuel + 1, names, cache =>
    let obsolete := cache.filter (isObsolete names)
    if obsolete.isEmpty then (names, cache)
    else
      dropObsolete fuel (names ++ obsolete.map fun e => e.1.name) (cache.filter fun e => !isObsolete names e)

/-- Forget the named classes, their heirs and their texts. -/
def evict (l : Library) (names : List String) : Library :=
  let (names, cache) := dropObsolete l.cache.length names l.cache
  { l with cache, store := l.store.forget names }

end Library

end ShaderCompose
