import TemplateTags.Component.Data
import TemplateTags.Config.Basic
import TemplateTags.Text.Numeral

/-!
# Directives

A tag is replaced by a directive, which later stages of the template engine turn into calls
of the host.  The directive that opens a component carries the type that renders it, the
data for its constructor and the attributes for its attribute bag; the one that opens a slot
carries its name and attributes.

Attributes are written as entries of a host array.  In the attributes of a component, bound
values are wrapped in a call of the sanitiser, unless they are plain numbers or `true`; the
data for a constructor is not sanitised, nor are the attributes of the dynamic component.
-/

namespace TemplateTags
namespace Directive

/-! ## Entries -/

/-- Whether a value needs no sanitising even if it is bound. -/
def isPlainValue (value : Text) : Bool := value = "true".toList || Numeral.isNumeral value

/-- A name and a value as an entry of a host array. -/
def entry (name value : Text) : Text := '\'' :: name ++ "' => ".toList ++ value

/-- The entry for an attribute, given the names of the bound attributes; without these no
value is sanitised. -/
def attributeEntry (config : Config) (bound : Option (List Text)) (a : Attribute) : Text :=
  if (bound.any fun names => names.contains a.name) && !isPlainValue a.value then
    entry a.name (config.sanitizer ++ ['('] ++ a.value ++ [')'])
  else entry a.name a.value

/-- The entries for attributes. -/
def entries (config : Config) (bound : Option (List Text)) (l : List Attribute) : Text :=
  Text.commaSeparated (l.map (attributeEntry config bound))

/-! ## Components -/

/-- The type that renders a target. -/
def renderingType (config : Config) : Component.Target → Text
  | .type n => n
  | .view _ => config.anonymousType
  | .rawView _ => config.anonymousType

/-- The entries that tell the type for anonymous components its view and its data. -/
def viewEntries (view data : Text) : Text :=
  "'view' => ".toList ++ view ++ ",'data' => [".toList ++ data ++ [']']

/-- The entries for the constructor. -/
def constructorEntries (target : Component.Target) (data : Text) : Text :=
  match target with
  | .type _ => data
  | .view n => viewEntries ('\'' :: n ++ ['\'']) data
  | .rawView n =>
    viewEntries ("$__env->getContainer()->make(Illuminate\\View\\Factory::class)->make('".toList ++
      n ++ "')".toList) data

/-- The directive that opens a component.  The data has its names in camel case already. -/
def componentOpen (config : Config) (target : Component.Target) (component : Text)
    (data attributes : List Attribute) (bound : List Text) : Text :=
  let type := renderingType config target
  let marks := if type = config.dynamicType then none else some bound
  "##BEGIN-COMPONENT-CLASS##@component('".toList ++ type ++ "', '".toList ++ component ++
    "', [".toList ++ constructorEntries target (entries config none data) ++
    ("])\n<?php if (isset($attributes) && $attributes instanceof ".toList ++
    config.bagType ++ " && $constructor = (new ReflectionClass(".toList ++ type ++
    "::class))->getConstructor()): ?>".toList ++
    ("\n<?php $attributes = $attributes->except(\\Illuminate\\Support\\collect(" ++
      "$constructor->getParameters())->map->getName()->all()); ?>").toList ++
    "\n<?php endif; ?>\n<?php $component->withAttributes([".toList ++
    entries config marks attributes ++ "]); ?>".toList)

/-- What ends a component. -/
def componentEnd : Text := "@endComponentClass##END-COMPONENT-CLASS##".toList

/-- What follows the directive that opens a component if the tag also closes it. -/
def selfClosing : Text := '\n' :: componentEnd

/-- The directive that closes a component. -/
def componentClose : Text := ' ' :: componentEnd

/-! ## Slots -/

/-- The directive that opens a slot.  The name is a host expression. -/
def slotOpen (config : Config) (name : Text) (attributes : List Attribute)
    (bound : List Text) : Text :=
  " @slot(".toList ++ name ++ ", null, [".toList ++ entries config (some bound) attributes ++
    "]) ".toList

/-- The directive that closes a slot. -/
def slotClose : Text := " @endslot".toList

end Directive
end TemplateTags
