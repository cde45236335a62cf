import StackScript.Declaration.Table

/-!
# Outlines of declarations

## Main definitions

* `FunctionEntry.outline`, `TypeEntry.outline`, `FileEntry.outline`: what the table knows of
  functions, types and files
-/

namespace StackScript

def outlineTexts (texts : List String) : Outline := .list (texts.map .text)

def FunctionEntry.outline (entry : FunctionEntry) : Outline :=
  .record "Function" [
    ("function", .text entry.name.text), ("file", .text entry.placement.file),
    ("conditional", .bool entry.placement.conditional),
    ("site", .ofOption .text entry.placement.site?),
    ("params", outlineTexts (entry.routine.params.map (·.name)))]

def TypeEntry.outline (entry : TypeEntry) : Outline :=
  .record "Type" [
    ("type", .text entry.name.text), ("file", .text entry.placement.file),
    ("conditional", .bool entry.placement.conditional),
    ("site", .ofOption .text entry.placement.site?),
    ("base", .ofOption (fun base => .text base.text) entry.base),
    ("instance_fields", outlineTexts (entry.instanceFields.map (·.name))),
    ("static_fields", outlineTexts (entry.staticFields.map (·.name))),
    ("methods", .list (entry.methods.map fun method =>
      .list [.text method.displayName, .bool method.threadsContext])),
    ("statics_holder", .bool entry.hasBoundFields),
    ("app_statics", .bool entry.hasSharedFields),
    ("magic_invoke", .bool entry.handlesInvoke),
    ("context_field", .bool entry.storesContext)]

def FileEntry.outline (file : FileEntry) : Outline :=
  .record "File" [
    ("path", .text file.path), ("source_path", .text file.sourcePath), ("unit", .nat file.unit),
    ("declarations", .list (file.declarations.map fun declaration =>
      .list [.text declaration.name.text, .bool declaration.placement.conditional,
        .bool declaration.isType]))]

end StackScript
