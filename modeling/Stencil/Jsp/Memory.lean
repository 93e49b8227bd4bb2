import Stencil.Matcher.Basic

/-!
# What the page grammar remembers

While it matches, the page grammar remembers three things in the store: whether the expression
language is on, which attribute names the tag at hand has had, and the name of the last start tag.
This module holds the keys, the condition and the hooks that read and write them.
-/

set_option autoImplicit false

namespace Stencil.Jsp

/-- The key of the switch of the expression language. -/
def elEnabledKey : String := "el_enabled"

/-- The key of the attribute names that the tag at hand has had. -/
def attributeNamesKey : String := "attribute_names"

/-- The key of the name of the last start tag. -/
def tagNameKey : String := "tag_name"

/-- The expression language is on, unless it was switched off. -/
def elEnabled : Condition where
  name := "el_enabled"
  holds view := ((view elEnabledKey).getD (.flag true)).isTrue

/-- The attribute names so far. -/
def attributeNames (view : View) : List Text :=
  ((view attributeNamesKey).getD (.names [])).members

/-- A tag starts without attribute names. -/
def resetAttributeNames : EntryHook := fun _ => [.set attributeNamesKey (.names [])]

/-- Remember an attribute name, which the tag must not have had before. -/
def recordAttributeName : MatchHook := fun name view =>
  if (attributeNames view).contains name then ([], some (.duplicateAttribute name))
  else ([.set attributeNamesKey (.names (attributeNames view ++ [name]))], none)

/-- The same for a page directive, which may import as often as it likes. -/
def recordPageAttributeName : MatchHook := fun name view =>
  if name = "import".toList then ([], none) else recordAttributeName name view

/-- A library directive names its prefix, and either its address or its directory. -/
def checkTaglibAttributes : MatchHook := fun _ view =>
  let has (name : String) : Bool := (attributeNames view).contains name.toList
  if !has "prefix" then ([], some (.mismatch "taglib directive attribute \"prefix\""))
  else if has "uri" == has "tagdir" then
    ([], some (.mismatch "exactly one of taglib directive attributes \"uri\" | \"tagdir\""))
  else ([], none)

/-- Remember the name of a start tag. -/
def captureTagName : MatchHook := fun name _ => ([.set tagNameKey (.text name)], none)

/-- Switch the expression language on or off. -/
def switchEl (on : Bool) : MatchHook := fun _ _ => ([.set elEnabledKey (.flag on)], none)

end Stencil.Jsp
