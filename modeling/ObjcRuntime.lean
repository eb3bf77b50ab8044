import ObjcRuntime.Object.Pinned
import ObjcRuntime.Object.ThreadsSafe
import ObjcRuntime.Weak.AnyHash
import ObjcRuntime.Weak.ThreadsSafe
import ObjcRuntime.Assoc.Destruct
import ObjcRuntime.Assoc.Ownership
import ObjcRuntime.Autorelease.Unbalanced
import ObjcRuntime.Autorelease.ReturnValue
import ObjcRuntime.Cache.Refine
import ObjcRuntime.Cache.Safe
import ObjcRuntime.Cache.Filled
import ObjcRuntime.Class.AddIvar
import ObjcRuntime.Class.Names
import ObjcRuntime.Class.Bulk
import ObjcRuntime.Class.Unload
import ObjcRuntime.Class.CxxFlags
import ObjcRuntime.Class.DefaultSafe
import ObjcRuntime.Protocol.Methods
import ObjcRuntime.Trampoline.Correct
import ObjcRuntime.Sync.Safe
import ObjcRuntime.Load.Unload
import ObjcRuntime.Load.Order
import ObjcRuntime.Initialize.Safe
import ObjcRuntime.Property.Atomic
import ObjcRuntime.Property.AttributeString
import ObjcRuntime.TypeEncoding.Grammar
import ObjcRuntime.Class.FutureClasses
import ObjcRuntime.Class.Subclasses
import ObjcRuntime.Class.ListArrays
import ObjcRuntime.Class.Search
import ObjcRuntime.Exception.Leb
import ObjcRuntime.Exception.AltHandlers
import ObjcRuntime.Class.CxxConstruct
import ObjcRuntime.Class.ListSizes
import ObjcRuntime.Class.Layouts
import ObjcRuntime.Environ
